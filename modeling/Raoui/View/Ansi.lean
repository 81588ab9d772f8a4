import Raoui.Lib.Sgr
import Raoui.Tty.CursorQuery
import Raoui.View.TerminalOps

/-!
# Raoui.View.Ansi

`render_spans` of `lib/terminal_ops.ml`, and what a terminal makes of it.

* `faceToAnsi_reads`: the sequence in front of a span selects the face, whatever was selected
  before.
* `styleToFace_valid`: the named styles of a theme keep to the palette.
* `renderSpans_cells`: every span is shown in its face.
-/

namespace Raoui
namespace TerminalOps

open Ffi (decimal decimalInt)
open Sgr (Terminal Complete)
open Theme (T Face Color toAnsi256)

def sgrCodesOfColor (isBackground : Bool) (color : Color) : List Bytes :=
  match toAnsi256 color with
  | none => [if isBackground then bytes "49" else bytes "39"]
  | some n => [if isBackground then bytes "48" else bytes "38", bytes "5", decimalInt n]

/-- The colours; every attribute that is on is put in front of them. -/
def faceCodes (face : Face) : List Bytes :=
  let codes := sgrCodesOfColor false face.fg
  let codes := codes ++
    match face.bg with
    | some bg => sgrCodesOfColor true bg
    | none => [bytes "49"]
  let codes := if face.bold then bytes "1" :: codes else codes
  let codes := if face.dim then bytes "2" :: codes else codes
  let codes := if face.italic then bytes "3" :: codes else codes
  let codes := if face.underline then bytes "4" :: codes else codes
  if face.strike then bytes "9" :: codes else codes

def faceToAnsi (face : Face) : Bytes :=
  bytes "\x1b[0;" ++ concatWith (bytes ";") (faceCodes face) ++ bytes "m"

def styleToFace (theme : T) : Style → Face
  | .plain => theme.plain
  | .accent => theme.accent
  | .error => theme.error
  | .keyword => theme.keyword
  | .string => theme.string
  | .number => theme.number
  | .comment => theme.comment
  | .operator => theme.operator
  | .constant => theme.constant
  | .ident => theme.ident
  | .bracket => theme.bracket
  | .function => theme.function
  | .completion => theme.completion
  | .completionSelected => theme.completionSelected
  | .shellPrompt => theme.shellPrompt
  | .aiPrompt => theme.aiPrompt
  | .face f => f
  | .raw => theme.plain

def reset : Bytes := bytes "\x1b[0m"

def styleToAnsi (theme : T) (style : Style) : Bytes :=
  if style = .raw then reset else faceToAnsi (styleToFace theme style)

def renderSpans (theme : T) (spans : List Span) : Bytes :=
  (spans.flatMap fun span => styleToAnsi theme span.1 ++ span.2) ++ reset

theorem styleToFace_valid (name : Bytes) {style : Style} (h : ∀ f, style = .face f → f.Valid) :
    (styleToFace (Theme.ofName name) style).Valid := by
  have hfaces := Theme.ofName_valid name
  simp only [T.faces, List.forall_mem_cons] at hfaces
  cases style with
  | face f => exact h f rfl
  | _ => simp only [styleToFace, hfaces]

/-! ## What a terminal shows -/

def shownColor (c : Color) : Sgr.Color :=
  match toAnsi256 c with
  | none => .default
  | some n => .indexed n.toNat

def shownFace (f : Face) : Sgr.Face where
  fg := shownColor f.fg
  bg := match f.bg with
    | some bg => shownColor bg
    | none => .default
  bold := f.bold
  dim := f.dim
  italic := f.italic
  underline := f.underline
  strike := f.strike

theorem value_digits {l : List Char} (hl : ∀ c ∈ l, c.isDigit = true) (n : Nat) :
    Sgr.value n (l.map Tty.digitByte) = Nat.ofDigitChars 10 l n := by
  induction l generalizing n with
  | nil => exact Nat.ofDigitChars_nil.symm
  | cons c l ih =>
    obtain ⟨hc, hl⟩ := List.forall_mem_cons.mp hl
    rw [Nat.ofDigitChars_cons, ← ih hl, ← Tty.toNat_digitByte hc]
    rfl

theorem value_decimal (n : Nat) : Sgr.value 0 (decimal n) = n := by
  have hdigits : ∀ c ∈ Nat.toDigits 10 n, c.isDigit = true := fun _ hd =>
    Nat.isDigit_of_mem_toDigits (by decide) (by decide) hd
  exact (value_digits hdigits 0).trans (Nat.ofDigitChars_ten_toDigits)

/-! ## The sequence of a face -/

/-- A number written in digits. -/
def IsCode (code : Bytes) : Prop := ∀ c ∈ code, Sgr.isDigit c = true

instance (code : Bytes) : Decidable (IsCode code) :=
  inferInstanceAs (Decidable (∀ c ∈ code, Sgr.isDigit c = true))

theorem isCode_decimal (n : Nat) : IsCode (decimal n) := fun c hc =>
  Tty.isDigit_of_bounds (Tty.isDecimal_decimal n c hc)

theorem params_concatWith {codes : List Bytes} (hne : codes ≠ [])
    (h : ∀ code ∈ codes, IsCode code) :
    Sgr.params 0 (concatWith (bytes ";") codes) = codes.map (Sgr.value 0) := by
  induction codes with
  | nil => exact absurd rfl hne
  | cons code codes ih =>
    obtain ⟨hcode, hcodes⟩ := List.forall_mem_cons.mp h
    cases codes with
    | nil => exact (Sgr.params_digits hcode 0).1
    | cons code' codes =>
      show Sgr.params 0 (code ++ [59] ++ concatWith (bytes ";") (code' :: codes)) = _
      rw [List.append_assoc, List.singleton_append, (Sgr.params_digits hcode 0).2,
        ih (List.cons_ne_nil _ _) hcodes]
      rfl

theorem isSelection_concatWith {codes : List Bytes} (h : ∀ code ∈ codes, IsCode code) :
    Sgr.isSelection (concatWith (bytes ";") codes) = true := by
  have hselect {code : Bytes} (h : IsCode code) : Sgr.isSelection code = true :=
    List.all_eq_true.mpr fun c hc => by rw [h c hc, Bool.true_or]
  induction codes with
  | nil => rfl
  | cons code codes ih =>
    obtain ⟨hcode, hcodes⟩ := List.forall_mem_cons.mp h
    cases codes with
    | nil => exact hselect hcode
    | cons code' codes =>
      show Sgr.isSelection (code ++ [59] ++ concatWith (bytes ";") (code' :: codes)) = true
      have hrest := ih hcodes
      unfold Sgr.isSelection at hrest ⊢
      rw [List.all_append, List.all_append, hrest]
      exact Bool.and_eq_true_iff.mpr ⟨Bool.and_eq_true_iff.mpr ⟨hselect hcode, rfl⟩, rfl⟩

/-- What the codes do to a terminal that reads no colour. -/
def applyCodes (codes : List Bytes) (f : Sgr.Face) : Sgr.Pending × Sgr.Face :=
  (codes.map (Sgr.value 0)).foldl Sgr.selectStep (.none, f)

theorem sgrCodesOfColor_isCode (bg : Bool) {c : Color} (h : c.InPalette) :
    ∀ code ∈ sgrCodesOfColor bg c, IsCode code := by
  have hconst {s t : Bytes} (hs : IsCode s) (ht : IsCode t) : IsCode (if bg then s else t) := by
    cases bg with
    | false => exact ht
    | true => exact hs
  unfold sgrCodesOfColor
  cases hc : toAnsi256 c with
  | none =>
    exact List.forall_mem_singleton.mpr (hconst (by decide +kernel) (by decide +kernel))
  | some n =>
    obtain ⟨k, rfl⟩ := Int.eq_ofNat_of_zero_le (h n hc).1
    refine List.forall_mem_cons.mpr ⟨hconst (by decide +kernel) (by decide +kernel), ?_⟩
    exact List.forall_mem_cons.mpr
      ⟨by decide +kernel, List.forall_mem_singleton.mpr (isCode_decimal k)⟩

theorem applyCodes_color (bg : Bool) {c : Color} (h : c.InPalette) (f : Sgr.Face) :
    applyCodes (sgrCodesOfColor bg c) f = (.none, f.withColor bg (shownColor c)) := by
  unfold sgrCodesOfColor shownColor applyCodes
  cases hc : toAnsi256 c with
  | none =>
    refine Eq.trans ?_ (Sgr.foldl_default bg f)
    cases bg with
    | false => rfl
    | true => rfl
  | some n =>
    obtain ⟨hlow, hhigh⟩ := h n hc
    obtain ⟨k, rfl⟩ := Int.eq_ofNat_of_zero_le hlow
    refine Eq.trans ?_ (Sgr.foldl_indexed bg (show k < 256 by omega) f)
    have hk : Sgr.value 0 (decimalInt k) = k := value_decimal k
    dsimp only
    rw [List.map_cons, List.map_cons, List.map_cons, hk]
    cases bg with
    | false => rfl
    | true => rfl

theorem applyCodes_append (u v : List Bytes) {f g : Sgr.Face} (h : applyCodes u f = (.none, g)) :
    applyCodes (u ++ v) f = applyCodes v g := by
  unfold applyCodes at h ⊢
  rw [List.map_append, List.foldl_append, h]

theorem applyCodes_optional {code : Bytes} {codes : List Bytes} {f g : Sgr.Face}
    (h : applyCodes [code] f = (.none, g)) (b : Bool) :
    applyCodes (if b then code :: codes else codes) f = applyCodes codes (if b then g else f) := by
  cases b with
  | false => rfl
  | true => exact applyCodes_append [code] codes h

/-- The attributes come first, so the colours are selected behind them. -/
theorem applyCodes_face {face : Face} (h : face.Valid) :
    applyCodes (faceCodes face) Sgr.plain = (.none, shownFace face) := by
  have hcolors (f : Sgr.Face) :
      applyCodes (sgrCodesOfColor false face.fg ++
        match face.bg with
        | some bg => sgrCodesOfColor true bg
        | none => [bytes "49"]) f =
      (.none, { f with fg := (shownFace face).fg, bg := (shownFace face).bg }) := by
    rw [applyCodes_append _ _ (applyCodes_color false h.fg f), shownFace]
    cases hbg : face.bg with
    | none => exact Sgr.foldl_default true _
    | some bg => exact applyCodes_color true (h.bg bg hbg) _
  unfold faceCodes
  dsimp only
  rw [applyCodes_optional rfl, applyCodes_optional rfl, applyCodes_optional rfl,
    applyCodes_optional rfl, applyCodes_optional rfl, hcolors]
  obtain ⟨fg, bg, bold, dim, italic, underline, strike⟩ := face
  cases bold <;> cases dim <;> cases italic <;> cases underline <;> cases strike <;> rfl

theorem faceCodes_isCode {face : Face} (h : face.Valid) : ∀ code ∈ faceCodes face, IsCode code := by
  have hoptional {code : Bytes} {codes : List Bytes} (hcode : IsCode code)
      (hcodes : ∀ c ∈ codes, IsCode c) (b : Bool) :
      ∀ c ∈ (if b then code :: codes else codes), IsCode c := by
    split
    · exact List.forall_mem_cons.mpr ⟨hcode, hcodes⟩
    · exact hcodes
  have hcodes : IsCode (bytes "1") ∧ IsCode (bytes "2") ∧ IsCode (bytes "3") ∧
      IsCode (bytes "4") ∧ IsCode (bytes "9") := by decide +kernel
  obtain ⟨hbold, hdim, hitalic, hunderline, hstrike⟩ := hcodes
  unfold faceCodes
  dsimp only
  refine hoptional hstrike (hoptional hunderline (hoptional hitalic (hoptional hdim
    (hoptional hbold (List.forall_mem_append.mpr ⟨?_, ?_⟩) _) _) _) _) _
  · exact sgrCodesOfColor_isCode false h.fg
  · cases hbg : face.bg with
    | none => exact List.forall_mem_singleton.mpr (by decide +kernel)
    | some bg => exact sgrCodesOfColor_isCode true (h.bg bg hbg)

theorem faceCodes_ne_nil (face : Face) : faceCodes face ≠ [] := by
  have hoptional {code : Bytes} {codes : List Bytes} (h : codes ≠ []) (b : Bool) :
      (if b then code :: codes else codes) ≠ [] := by
    split
    · exact List.cons_ne_nil _ _
    · exact h
  have hcolor : sgrCodesOfColor false face.fg ≠ [] := by
    unfold sgrCodesOfColor
    split
    · exact List.cons_ne_nil _ _
    · exact List.cons_ne_nil _ _
  exact hoptional (hoptional (hoptional (hoptional (hoptional
    (List.append_ne_nil_of_left_ne_nil hcolor _) _) _) _) _) _

variable {σ : Type} {foreign : Sgr.Sequence → Sgr.Face × σ → Sgr.Face × σ}

theorem faceToAnsi_reads {face : Face} (h : face.Valid) {t : Terminal σ} (ht : t.mode = .ground) :
    t.cells foreign (faceToAnsi face) = [] ∧
      t.after foreign (faceToAnsi face) = { t with face := shownFace face } := by
  have hcodes : ∀ code ∈ bytes "0" :: faceCodes face, IsCode code :=
    List.forall_mem_cons.mpr ⟨by decide +kernel, faceCodes_isCode h⟩
  obtain ⟨code, codes, hcons⟩ := List.exists_cons_of_ne_nil (faceCodes_ne_nil face)
  have hbytes : faceToAnsi face =
      27 :: 91 :: (concatWith (bytes ";") (bytes "0" :: faceCodes face) ++ [109]) := by
    rw [faceToAnsi, hcons]
    rfl
  have hselect : Sgr.select (Sgr.params 0 (concatWith (bytes ";") (bytes "0" :: faceCodes face)))
      t.face = shownFace face := by
    rw [params_concatWith (List.cons_ne_nil _ _) hcodes]
    exact congrArg Prod.snd (applyCodes_face h)
  rw [hbytes, ← hselect]
  exact Terminal.read_select ht (isSelection_concatWith hcodes)

theorem reset_reads {t : Terminal σ} (ht : t.mode = .ground) :
    t.cells foreign reset = [] ∧ t.after foreign reset = { t with face := Sgr.plain } := by
  have hzero : Sgr.isSelection (bytes "0") = true := rfl
  exact Terminal.read_select ht hzero

/-! ## Spans -/

/-- What the text of a span may be: no Escape in a styled one, whole sequences in a raw one. -/
def TextAllowed (span : Span) : Prop :=
  if span.1 = .raw then Complete span.2 else ∀ c ∈ span.2, c ≠ 27

/-- The cells a span is to be shown as. A raw text is shown by a terminal that has been reset. -/
def ShownAs (foreign : Sgr.Sequence → Sgr.Face × σ → Sgr.Face × σ) (theme : T) (span : Span)
    (cells : List Sgr.Cell) : Prop :=
  if span.1 = .raw then ∃ o, cells = (⟨.ground, Sgr.plain, o⟩ : Terminal σ).cells foreign span.2
  else cells = span.2.map fun c => (c, shownFace (styleToFace theme span.1))

theorem span_reads {theme : T} {span : Span} (htext : TextAllowed span)
    (hface : span.1 ≠ .raw → (styleToFace theme span.1).Valid) {t : Terminal σ}
    (ht : t.mode = .ground) :
    ShownAs foreign theme span (t.cells foreign (styleToAnsi theme span.1 ++ span.2)) ∧
      (t.after foreign (styleToAnsi theme span.1 ++ span.2)).mode = .ground := by
  unfold ShownAs styleToAnsi
  unfold TextAllowed at htext
  rw [Terminal.cells_append, Terminal.after_append]
  by_cases hraw : span.1 = .raw
  · rw [if_pos hraw] at htext
    rw [if_pos hraw, if_pos hraw]
    obtain ⟨hcells, hafter⟩ := @reset_reads σ foreign t ht
    rw [hcells, hafter, List.nil_append]
    have hground : ({ t with face := Sgr.plain } : Terminal σ).mode = .ground := ht
    exact ⟨⟨t.other, by rw [ht]⟩, Terminal.after_complete hground htext⟩
  · rw [if_neg hraw] at htext
    rw [if_neg hraw, if_neg hraw]
    obtain ⟨hcells, hafter⟩ := @faceToAnsi_reads σ foreign _ (hface hraw) t ht
    rw [hcells, hafter, List.nil_append]
    have hground : ({ t with face := shownFace (styleToFace theme span.1) } : Terminal σ).mode =
        .ground := ht
    obtain ⟨hshown, hsame⟩ := @Terminal.read_text σ foreign _ hground span.2 htext
    exact ⟨hshown, by rw [hsame, hground]⟩

theorem renderSpans_cells (foreign : Sgr.Sequence → Sgr.Face × σ → Sgr.Face × σ) (theme : T)
    (spans : List Span) (htext : ∀ span ∈ spans, TextAllowed span)
    (hface : ∀ span ∈ spans, span.1 ≠ .raw → (styleToFace theme span.1).Valid) (t : Terminal σ)
    (ht : t.mode = .ground) :
    (∃ cells, t.cells foreign (renderSpans theme spans) = cells.flatten ∧
      List.Forall₂ (ShownAs foreign theme) spans cells) ∧
    (t.after foreign (renderSpans theme spans)).mode = .ground ∧
    (t.after foreign (renderSpans theme spans)).face = Sgr.plain := by
  unfold renderSpans
  induction spans generalizing t with
  | nil =>
    obtain ⟨hcells, hafter⟩ := @reset_reads σ foreign t ht
    rw [List.flatMap_nil, List.nil_append, hcells, hafter]
    exact ⟨⟨[], rfl, .nil⟩, ht, rfl⟩
  | cons span spans ih =>
    obtain ⟨htext, htexts⟩ := List.forall_mem_cons.mp htext
    obtain ⟨hface, hfaces⟩ := List.forall_mem_cons.mp hface
    obtain ⟨hshown, hground⟩ := span_reads htext hface ht
    obtain ⟨⟨cells, hcells, hall⟩, hend⟩ := ih htexts hfaces _ hground
    rw [List.flatMap_cons, List.append_assoc,
      Terminal.cells_append t (styleToAnsi theme span.1 ++ span.2),
      Terminal.after_append t (styleToAnsi theme span.1 ++ span.2), hcells]
    exact ⟨⟨_ :: cells, rfl, .cons hshown hall⟩, hend⟩

/-- A title, a selection that is left on, and `x`. -/
def rawSpan : Span := (.raw, bytes "\x1b]0;R\x07\x1b[1;38;5;9mx")

/-- Struck out text, the raw span and a keyword. -/
def mixedSpans : List Span :=
  [(.face { Theme.face .default with strike := true }, bytes "a"), rawSpan, (.keyword, bytes "b")]

/-- A terminal that does nothing else. -/
def selectsOnly (_ : Sgr.Sequence) (s : Sgr.Face × Unit) : Sgr.Face × Unit := s

theorem renderSpans_cells_mixedSpans :
    let t : Terminal Unit := ⟨.ground, { Sgr.plain with underline := true }, ()⟩
    (∃ cells, t.cells selectsOnly (renderSpans Theme.nord mixedSpans) = cells.flatten ∧
      List.Forall₂ (ShownAs selectsOnly Theme.nord) mixedSpans cells) ∧
    (t.after selectsOnly (renderSpans Theme.nord mixedSpans)).mode = .ground ∧
    (t.after selectsOnly (renderSpans Theme.nord mixedSpans)).face = Sgr.plain := by
  have htext : ∀ span ∈ mixedSpans, TextAllowed span := by
    unfold TextAllowed
    decide +kernel
  have hface : ∀ span ∈ mixedSpans, span.1 ≠ .raw → (styleToFace Theme.nord span.1).Valid := by
    decide +kernel
  exact renderSpans_cells selectsOnly Theme.nord mixedSpans htext hface _ rfl

end TerminalOps
end Raoui
