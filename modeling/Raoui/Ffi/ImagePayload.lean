import Raoui.Tty.CursorQuery

/-!
# Raoui.Ffi.ImagePayload

The message of a finished plot: `raoui_emit_image` in `c_ffi/load_r.c` writes it for R, and
`parse_image_payload` in `lib/ffi_backend.ml` reads it.

* `pairs_lines`: lines of keys and values are read as they were written.
* `parseImagePayload_raouiEmitImage`: an image comes out as R handed it in, its measures as far as
  they are `int`s.
-/

namespace Raoui
namespace Ffi

open Tty (nativeInt)

/-- A C string, which ends before its first NUL. -/
structure CString where
  bytes : Bytes
  noNul : 0 ∉ bytes

/-- A number as `as.character` hands it over. -/
def CString.ofInt (v : Int) : CString where
  bytes := decimalInt v
  noNul h := absurd (Tty.mem_decimalInt h).1 (by decide)

/-- `sizeof(payload)`. -/
def payloadSize : Nat := 8192

/-- The format of `raoui_emit_image`, filled in. -/
def imageFormat (sourcePath previewPath mime width height : Bytes) : Bytes :=
  bytes "source_path=" ++ sourcePath ++ bytes "\npreview_path=" ++ previewPath ++
    bytes "\nmime=" ++ mime ++ bytes "\nwidth=" ++ width ++ bytes "\nheight=" ++ height ++
    bytes "\n"

/-- The payload `raoui_emit_image` pushes, if it pushes one: a path is missing, or `snprintf` had to
cut the text. -/
def raouiEmitImage (sourcePath previewPath width height mime : CString) : Option Bytes :=
  if sourcePath.bytes = [] ∨ previewPath.bytes = [] then none
  else
    let payload := imageFormat sourcePath.bytes previewPath.bytes mime.bytes width.bytes height.bytes
    if payload.length ≥ payloadSize then none else some payload

/-! ## Lines of keys and values -/

/-- A text that stays whole on a line of its own. -/
structure OneLine (s : Bytes) : Prop where
  noNewline : newline ∉ s
  trimmed : trim s = s

def equals : UInt8 := 61

def line (pair : Bytes × Bytes) : Bytes := pair.1 ++ equals :: pair.2

def lines (pairs : List (Bytes × Bytes)) : Bytes := pairs.flatMap fun pair => line pair ++ [newline]

/-- The first `=` ends the key, whatever the value holds. -/
theorem splitFirstEq_line {key value : Bytes} (hkey : OneLine key) (heq : equals ∉ key)
    (hvalue : OneLine value) : splitFirstEq (line (key, value)) = some (key, value) := by
  have hbefore : ∀ c ∈ key, (decide (c ≠ 61)) = true := by
    intro c hc
    rw [decide_eq_true_eq]
    rintro rfl
    exact heq hc
  have hmem : (line (key, value)).contains 61 = true := by
    rw [List.contains_iff_mem]
    exact List.mem_append_right _ List.mem_cons_self
  rw [splitFirstEq, if_pos hmem]
  simp only [line]
  rw [List.takeWhile_append_of_pos hbefore, List.dropWhile_append_of_pos hbefore,
    List.takeWhile_cons_of_neg (by decide), List.dropWhile_cons_of_neg (by decide),
    List.append_nil, List.drop_one, List.tail_cons, hkey.trimmed, hvalue.trimmed]

theorem splitOnChar_lines {pairs : List (Bytes × Bytes)}
    (h : ∀ pair ∈ pairs, OneLine pair.1 ∧ OneLine pair.2) :
    splitOnChar newline (lines pairs) = pairs.map line ++ [[]] := by
  induction pairs with
  | nil => rfl
  | cons pair pairs ih =>
    obtain ⟨⟨hkey, hvalue⟩, hrest⟩ := List.forall_mem_cons.mp h
    have hline : newline ∉ line pair :=
      List.not_mem_append hkey.noNewline (List.not_mem_cons_of_ne_of_not_mem (by decide)
        hvalue.noNewline)
    have hlines : lines (pair :: pairs) = line pair ++ newline :: lines pairs := by
      simp [lines]
    rw [hlines, splitOnChar_append, splitOnChar_of_notMem hline, ih hrest]
    rfl

/-- What the reader makes of such lines: the pairs again. -/
theorem pairs_lines {pairs : List (Bytes × Bytes)}
    (h : ∀ pair ∈ pairs, (OneLine pair.1 ∧ equals ∉ pair.1) ∧ OneLine pair.2) :
    (splitOnChar newline (lines pairs)).filter (· ≠ []) = pairs.map line ∧
      (pairs.map line).filterMap splitFirstEq = pairs := by
  constructor
  · rw [splitOnChar_lines fun pair hpair => ⟨(h pair hpair).1.1, (h pair hpair).2⟩,
      List.filter_append, List.filter_eq_self.mpr]
    · exact List.append_nil _
    · intro l hl
      obtain ⟨pair, -, rfl⟩ := List.mem_map.mp hl
      simp [line]
  · rw [List.filterMap_map]
    calc pairs.filterMap (splitFirstEq ∘ line) = pairs.filterMap some :=
          List.filterMap_congr fun pair hpair =>
            splitFirstEq_line (h pair hpair).1.1 (h pair hpair).1.2 (h pair hpair).2
      _ = pairs := List.filterMap_some

/-- Where no key comes twice, each finds its value. -/
theorem lookup_of_mem {pairs : List (Bytes × Bytes)} (hkeys : (pairs.map Prod.fst).Nodup)
    {key value : Bytes} (hmem : (key, value) ∈ pairs) : pairs.lookup key = some value := by
  induction pairs with
  | nil => exact absurd hmem List.not_mem_nil
  | cons pair pairs ih =>
    rw [List.map_cons, List.nodup_cons] at hkeys
    rcases List.mem_cons.mp hmem with rfl | hmem
    · exact List.lookup_cons_self
    · have hne : (key == pair.1) = false := by
        rw [beq_eq_false_iff_ne]
        rintro rfl
        exact hkeys.1 (List.mem_map.mpr ⟨_, hmem, rfl⟩)
      rw [List.lookup_cons, hne]
      exact ih hkeys.2 hmem

/-! ## The payload -/

section
variable {sourcePath previewPath mime width height : Bytes}

/-- The lines of the format. -/
def imagePairs (sourcePath previewPath mime width height : Bytes) : List (Bytes × Bytes) :=
  [(bytes "source_path", sourcePath), (bytes "preview_path", previewPath), (bytes "mime", mime),
    (bytes "width", width), (bytes "height", height)]

theorem imageFormat_eq : imageFormat sourcePath previewPath mime width height =
    lines (imagePairs sourcePath previewPath mime width height) := by
  have hkeys : bytes "source_path=" = bytes "source_path" ++ [equals] ∧
      bytes "\npreview_path=" = newline :: (bytes "preview_path" ++ [equals]) ∧
      bytes "\nmime=" = newline :: (bytes "mime" ++ [equals]) ∧
      bytes "\nwidth=" = newline :: (bytes "width" ++ [equals]) ∧
      bytes "\nheight=" = newline :: (bytes "height" ++ [equals]) ∧
      bytes "\n" = [newline] := by decide +kernel
  obtain ⟨hsource, hpreview, hmime, hwidth, hheight, hend⟩ := hkeys
  rw [imageFormat, hsource, hpreview, hmime, hwidth, hheight, hend]
  simp only [imagePairs, lines, line, List.flatMap_cons, List.flatMap_nil, List.append_assoc,
    List.cons_append, List.nil_append, List.append_nil]

/-- The keys are five, and no line ends early for one of them. -/
theorem imagePairs_keys :
    ((imagePairs sourcePath previewPath mime width height).map Prod.fst).Nodup ∧
      ∀ pair ∈ imagePairs sourcePath previewPath mime width height,
        OneLine pair.1 ∧ equals ∉ pair.1 := by
  have hkeys : [bytes "source_path", bytes "preview_path", bytes "mime", bytes "width",
      bytes "height"].Nodup ∧ ∀ key ∈ [bytes "source_path", bytes "preview_path", bytes "mime",
        bytes "width", bytes "height"], newline ∉ key ∧ trim key = key ∧ equals ∉ key := by
    decide +kernel
  refine ⟨hkeys.1, fun pair hpair => ?_⟩
  obtain ⟨hnewline, htrim, heq⟩ := hkeys.2 pair.1 (List.mem_map_of_mem hpair)
  exact ⟨⟨hnewline, htrim⟩, heq⟩

theorem parseImagePayload_imageFormat (hsource : OneLine sourcePath) (hpreview : OneLine previewPath)
    (hmime : OneLine mime) (hwidth : OneLine width) (hheight : OneLine height) :
    parseImagePayload (imageFormat sourcePath previewPath mime width height) =
      some ⟨sourcePath, previewPath, some mime, intOfStringOpt width, intOfStringOpt height⟩ := by
  obtain ⟨hnodup, hkeys⟩ := @imagePairs_keys sourcePath previewPath mime width height
  have hvalues : ∀ pair ∈ imagePairs sourcePath previewPath mime width height, OneLine pair.2 := by
    simp only [imagePairs, List.forall_mem_cons]
    exact ⟨hsource, hpreview, hmime, hwidth, hheight, fun _ h => absurd h List.not_mem_nil⟩
  obtain ⟨hlines, hpairs⟩ := pairs_lines fun pair hpair => ⟨hkeys pair hpair, hvalues pair hpair⟩
  have hfind {key value : Bytes} := @lookup_of_mem _ hnodup key value
  rw [imageFormat_eq]
  unfold parseImagePayload
  rw [hlines]
  simp only [imagePairs, List.map_cons, List.map_nil] at hpairs hfind ⊢
  rw [hpairs, @hfind (bytes "source_path") sourcePath (by simp),
    @hfind (bytes "preview_path") previewPath (by simp), @hfind (bytes "mime") mime (by simp),
    @hfind (bytes "width") width (by simp), @hfind (bytes "height") height (by simp)]
  rfl

end

theorem trim_of_forall {s : Bytes} (h : ∀ c ∈ s, isTrimmed c = false) : trim s = s := by
  have hkeep {l : Bytes} (hl : ∀ c ∈ l, isTrimmed c = false) : l.dropWhile isTrimmed = l := by
    cases l with
    | nil => rfl
    | cons c l => exact List.dropWhile_cons_of_neg (by simp [hl c List.mem_cons_self])
  rw [trim, hkeep h, hkeep fun c hc => h c (List.mem_reverse.mp hc), List.reverse_reverse]

theorem oneLine_decimalInt (v : Int) : OneLine (decimalInt v) := by
  refine ⟨fun h => absurd (Tty.mem_decimalInt h).1 (by decide), trim_of_forall fun c hc => ?_⟩
  have hne (d : UInt8) (hd : d < 45) : c ≠ d := by
    rintro rfl
    exact absurd (Tty.mem_decimalInt hc).1 (UInt8.not_le.mpr hd)
  simp [isTrimmed, hne]

/-- The image R hands over is the one that is shown, with the measures that are `int`s. -/
theorem parseImagePayload_raouiEmitImage {sourcePath previewPath mime : CString}
    (hsource : OneLine sourcePath.bytes) (hsource' : sourcePath.bytes ≠ [])
    (hpreview : OneLine previewPath.bytes) (hpreview' : previewPath.bytes ≠ [])
    (hmime : OneLine mime.bytes) (width height : Int)
    (hfits : (imageFormat sourcePath.bytes previewPath.bytes mime.bytes (decimalInt width)
      (decimalInt height)).length < payloadSize) :
    (raouiEmitImage sourcePath previewPath (.ofInt width) (.ofInt height) mime).bind
        parseImagePayload =
      some ⟨sourcePath.bytes, previewPath.bytes, some mime.bytes, nativeInt width,
        nativeInt height⟩ := by
  unfold raouiEmitImage
  rw [if_neg (not_or.mpr ⟨hsource', hpreview'⟩)]
  dsimp only [CString.ofInt]
  rw [if_neg (Nat.not_le.mpr hfits), Option.bind_some, parseImagePayload_imageFormat hsource
    hpreview hmime (oneLine_decimalInt _) (oneLine_decimalInt _), Tty.intOfStringOpt_decimalInt,
    Tty.intOfStringOpt_decimalInt]

/-- A path with `=` and with keys of the format in it. -/
theorem parseImagePayload_raouiEmitImage_equals :
    (raouiEmitImage ⟨bytes "/tmp/width=1 mime=", by decide +kernel⟩
        ⟨bytes "path=", by decide +kernel⟩ (.ofInt 600) (.ofInt 450)
        ⟨bytes "image/png", by decide +kernel⟩).bind parseImagePayload =
      some ⟨bytes "/tmp/width=1 mime=", bytes "path=", some (bytes "image/png"), nativeInt 600,
        nativeInt 450⟩ :=
  parseImagePayload_raouiEmitImage ⟨by decide +kernel, by decide +kernel⟩ (by decide +kernel)
    ⟨by decide +kernel, by decide +kernel⟩ (by decide +kernel)
    ⟨by decide +kernel, by decide +kernel⟩ 600 450 (by decide +kernel)

/-- A width that is no `int` does not come out. -/
theorem parseImagePayload_raouiEmitImage_wide :
    ¬∀ (sourcePath previewPath mime : CString) (width height : Int),
      OneLine sourcePath.bytes → sourcePath.bytes ≠ [] →
      OneLine previewPath.bytes → previewPath.bytes ≠ [] → OneLine mime.bytes →
      (imageFormat sourcePath.bytes previewPath.bytes mime.bytes (decimalInt width)
        (decimalInt height)).length < payloadSize →
      (raouiEmitImage sourcePath previewPath (.ofInt width) (.ofInt height) mime).bind
          parseImagePayload =
        some ⟨sourcePath.bytes, previewPath.bytes, some mime.bytes, some width, some height⟩ := by
  intro h
  have hwide := h ⟨bytes "a.png", by decide +kernel⟩ ⟨bytes "a.png", by decide +kernel⟩
    ⟨bytes "image/png", by decide +kernel⟩ 4611686018427387904 450
    ⟨by decide +kernel, by decide +kernel⟩ (by decide +kernel)
    ⟨by decide +kernel, by decide +kernel⟩ (by decide +kernel)
    ⟨by decide +kernel, by decide +kernel⟩ (by decide +kernel)
  exact absurd hwide (by decide +kernel)

end Ffi
end Raoui
