import Raoui.Lib.Base64
import Raoui.Lib.GraphicsCommand
import Raoui.Tty.CursorQuery

/-!
# Raoui.View.TerminalImage

`lib/terminal_image.ml`: an image file as graphics commands of the terminal. How many cells the
image takes is computed in floating point and is a parameter here, as is the file system.

* `base64Encode_eq`: the encoder is that of the RFC.
* `addChunks_spec`: what the loop over the encoded file writes.
* `renderKitty_transmits`: the terminal reads the file back.
-/

namespace Raoui
namespace TerminalImage

open Ffi (decimalInt Image)
open GraphicsCommand (Command commands)

structure Rendered where
  output : Bytes
  rows : Int
  deriving DecidableEq, Repr

/-! ## Encoding -/

def base64Table : Bytes :=
  bytes "ABCDEFGHIJKLMNOPQRSTUVWXYZabcdefghijklmnopqrstuvwxyz0123456789+/"

/-- One round of the loop of `base64_encode`: up to three bytes. -/
def base64Group (b₀ : UInt8) (b₁ b₂ : Option UInt8) : Bytes :=
  let code (b : Option UInt8) : Nat := (b.map UInt8.toNat).getD 0
  let triple := (b₀.toNat <<< 16) ||| (code b₁ <<< 8) ||| code b₂
  [base64Table.getD ((triple >>> 18) &&& 0x3f) 0,
    base64Table.getD ((triple >>> 12) &&& 0x3f) 0,
    if b₁.isSome then base64Table.getD ((triple >>> 6) &&& 0x3f) 0 else 61,
    if b₂.isSome then base64Table.getD (triple &&& 0x3f) 0 else 61]

def base64Encode : Bytes → Bytes
  | [] => []
  | [b₀] => base64Group b₀ none none
  | [b₀, b₁] => base64Group b₀ (some b₁) none
  | b₀ :: b₁ :: b₂ :: rest => base64Group b₀ (some b₁) (some b₂) ++ base64Encode rest

/-! ## Rendering -/

/-- `choose_cols` and `estimate_rows`. -/
structure Cells where
  chooseCols : (termWidth maxWidthCols maxHeightRows widthPx heightPx : Int) → Int
  estimateRows : (widthPx heightPx cols : Int) → Int

/-- The options of `user_options.ml` that are read here. -/
structure ImageOptions where
  inlineImageMaxWidthCols : Int
  inlineImageMaxHeightRows : Int

def kittyChunk (payload : Option Bytes) (params : Bytes) : Bytes :=
  let body := match payload with
    | some data => params ++ bytes ";" ++ data
    | none => params
  bytes "\x1b_G" ++ body ++ bytes "\x1b\\"

def encodedChunkSize : Nat := 4096

/-- The parameters of a chunk: the first one says what is sent, and all of them whether more
follows. -/
def chunkParams (cols rows : Int) (first hasMore : Bool) : Bytes :=
  let more : Int := if hasMore then 1 else 0
  if first then
    bytes "a=T,f=100,t=d,c=" ++ decimalInt cols ++ bytes ",r=" ++ decimalInt rows ++ bytes ",m=" ++
      decimalInt more ++ bytes ",q=2"
  else bytes "m=" ++ decimalInt more

/-- A chunk is never empty, so `encoded.length` rounds do. -/
def addChunks (cols rows : Int) (encoded : Bytes) : Nat → Nat → Bool → Bytes
  | 0, _, _ => []
  | fuel + 1, offset, first =>
    let totalLen := encoded.length
    if offset < totalLen then
      let chunkLen := min encodedChunkSize (totalLen - offset)
      let payload := (encoded.drop offset).take chunkLen
      let hasMore : Bool := offset + chunkLen < totalLen
      kittyChunk (some payload) (chunkParams cols rows first hasMore) ++
        addChunks cols rows encoded fuel (offset + chunkLen) false
    else []

/-- `read_file` gives `none` where it raises `Sys_error`. -/
def renderKitty (cells : Cells) (readFile : Bytes → Option Bytes) (config : ImageOptions)
    (termWidth : Int) (image : Image) : Option Rendered :=
  match image.widthPx, image.heightPx with
  | some widthPx, some heightPx =>
    if widthPx > 0 ∧ heightPx > 0 then
      let cols := cells.chooseCols termWidth config.inlineImageMaxWidthCols
        config.inlineImageMaxHeightRows widthPx heightPx
      let rows := min (cells.estimateRows widthPx heightPx cols) config.inlineImageMaxHeightRows
      match readFile image.previewPath with
      | some file =>
        let encoded := base64Encode file
        some ⟨addChunks cols rows encoded encoded.length 0 true ++ bytes "\r\n", rows⟩
      | none => none
    else none
  | _, _ => none

/-! ## The encoder -/

theorem triple_eq {b₀ b₁ b₂ : Nat} (h₁ : b₁ < 256) (h₂ : b₂ < 256) :
    (b₀ <<< 16) ||| (b₁ <<< 8) ||| b₂ = b₀ * 65536 + b₁ * 256 + b₂ := by
  have hlow : b₁ <<< 8 < 2 ^ 16 := by
    rw [Nat.shiftLeft_eq]
    omega
  have hhigh : (b₀ <<< 16) + (b₁ <<< 8) = (b₀ <<< 8 + b₁) <<< 8 := by
    simp only [Nat.shiftLeft_eq]
    omega
  rw [← Nat.shiftLeft_add_eq_or_of_lt hlow, hhigh, ← Nat.shiftLeft_add_eq_or_of_lt (by omega)]
  simp only [Nat.shiftLeft_eq]
  omega

theorem sextet_eq (n k : Nat) : (n >>> k) &&& 0x3f = n / 2 ^ k % 64 := by
  rw [Nat.shiftRight_eq_div_pow]
  exact Nat.and_two_pow_sub_one_eq_mod _ 6

theorem base64Table_eq {n : Nat} (h : n < 64) : base64Table.getD n 0 = Base64.digit n := by
  have hall : ∀ i : Fin 64, base64Table.getD i 0 = Base64.digit i := by decide +kernel
  exact hall ⟨n, h⟩

/-- The bits of three bytes, six at a time. -/
theorem sextets {x y z : Nat} (hx : x < 256) (hy : y < 256) (hz : z < 256) :
    (x * 65536 + y * 256 + z) / 2 ^ 18 % 64 = x / 4 ∧
      (x * 65536 + y * 256 + z) / 2 ^ 12 % 64 = x % 4 * 16 + y / 16 ∧
      (x * 65536 + y * 256 + z) / 2 ^ 6 % 64 = y % 16 * 4 + z / 64 ∧
      (x * 65536 + y * 256 + z) % 64 = z % 64 := by
  refine ⟨?_, ?_, ?_, ?_⟩ <;> omega

/-- The code of a byte that may be missing. -/
def code (b : Option UInt8) : Nat := (b.map UInt8.toNat).getD 0

theorem code_lt (b : Option UInt8) : code b < 256 := by
  cases b with
  | none => decide
  | some b => exact b.toNat_lt

theorem base64Group_eq (b₀ : UInt8) (b₁ b₂ : Option UInt8) : base64Group b₀ b₁ b₂ =
    [Base64.digit (b₀.toNat / 4), Base64.digit (b₀.toNat % 4 * 16 + code b₁ / 16),
      if b₁.isSome then Base64.digit (code b₁ % 16 * 4 + code b₂ / 64) else Base64.pad,
      if b₂.isSome then Base64.digit (code b₂ % 64) else Base64.pad] := by
  have hdigit (n k : Nat) : base64Table.getD ((n >>> k) &&& 0x3f) 0 =
      Base64.digit (n / 2 ^ k % 64) := by
    rw [sextet_eq, base64Table_eq (Nat.mod_lt _ (by decide))]
  have hlast (n : Nat) : base64Table.getD (n &&& 0x3f) 0 = Base64.digit (n % 64) := by
    have := hdigit n 0
    rwa [Nat.shiftRight_zero, Nat.pow_zero, Nat.div_one] at this
  have htriple := @triple_eq b₀.toNat (code b₁) (code b₂) (code_lt b₁) (code_lt b₂)
  obtain ⟨s₀, s₁, s₂, s₃⟩ := sextets b₀.toNat_lt (code_lt b₁) (code_lt b₂)
  rw [← s₀, ← s₁, ← s₂, ← s₃, ← htriple, ← hdigit, ← hdigit, ← hdigit, ← hlast]
  rfl

theorem base64Encode_eq (s : Bytes) : base64Encode s = Base64.encode s := by
  induction s using base64Encode.induct with
  | case1 => rfl
  | case2 b₀ =>
    rw [base64Encode, base64Group_eq, Base64.encode]
    rfl
  | case3 b₀ b₁ =>
    rw [base64Encode, base64Group_eq, Base64.encode]
    simp [code]
  | case4 b₀ b₁ b₂ rest ih =>
    rw [base64Encode, base64Group_eq, Base64.encode, ih]
    rfl

/-! ## The chunks -/

theorem kittyChunk_eq (payload params : Bytes) :
    kittyChunk (some payload) params = GraphicsCommand.write ⟨params, payload⟩ := by
  have hopen : bytes "\x1b_G" = [27, 95, 71] := by decide +kernel
  have hclose : bytes "\x1b\\" = [27, 92] := by decide +kernel
  have hsep : bytes ";" = [59] := by decide +kernel
  simp only [kittyChunk, hopen, hclose, hsep, GraphicsCommand.write, GraphicsCommand.esc,
    GraphicsCommand.semicolon, List.append_assoc, List.cons_append, List.nil_append]

/-- The parameters are in the way of no reader: numbers, letters, commas and equals signs. -/
theorem mem_chunkParams {cols rows : Int} {first hasMore : Bool} {c : UInt8}
    (h : c ∈ chunkParams cols rows first hasMore) :
    c ≠ GraphicsCommand.esc ∧ c ≠ GraphicsCommand.semicolon := by
  have hliterals : ∀ c ∈ bytes "a=T,f=100,t=d,c=" ++ bytes ",r=" ++ bytes ",m=" ++ bytes ",q=2" ++
      bytes "m=", c ≠ 27 ∧ c ≠ 59 := by decide +kernel
  simp only [List.forall_mem_append] at hliterals
  obtain ⟨⟨⟨⟨hsent, hrows⟩, hmore⟩, hquiet⟩, hlater⟩ := hliterals
  have hnumber (v : Int) : ∀ c ∈ decimalInt v, c ≠ 27 ∧ c ≠ 59 := by
    intro c hc
    have hbounds := Tty.mem_decimalInt hc
    constructor <;> rintro rfl
    · exact absurd hbounds.1 (by decide)
    · exact absurd hbounds.2 (by decide)
  revert c
  cases first with
  | true =>
    simp only [chunkParams, if_true, List.forall_mem_append]
    exact ⟨⟨⟨⟨⟨⟨hsent, hnumber _⟩, hrows⟩, hnumber _⟩, hmore⟩, hnumber _⟩, hquiet⟩
  | false =>
    simp only [chunkParams, Bool.false_eq_true, if_false, List.forall_mem_append]
    exact ⟨hlater, hnumber _⟩

/-- What is written for the text behind `offset`. -/
structure Chunks (cols rows : Int) (encoded : Bytes) (offset : Nat) (first : Bool)
    (cs : List Command) : Prop where
  payloads : cs.flatMap Command.payload = encoded.drop offset
  size : ∀ c ∈ cs, c.payload.length ≤ encodedChunkSize
  some_left : cs = [] ↔ encoded.length ≤ offset
  control : ∀ i (h : i < cs.length),
    cs[i].control = chunkParams cols rows (first && i == 0) (i + 1 < cs.length)

theorem addChunks_spec (cols rows : Int) (encoded : Bytes) {fuel offset : Nat} (first : Bool)
    (hfuel : encoded.length ≤ offset + fuel) :
    ∃ cs, addChunks cols rows encoded fuel offset first = cs.flatMap GraphicsCommand.write ∧
      Chunks cols rows encoded offset first cs := by
  induction fuel generalizing offset first with
  | zero =>
    refine ⟨[], rfl, ?_, fun c hc => absurd hc List.not_mem_nil, iff_of_true rfl hfuel,
      fun i h => absurd h (Nat.not_lt_zero i)⟩
    rw [List.drop_of_length_le (show encoded.length ≤ offset from hfuel)]
    rfl
  | succ fuel ih =>
    unfold addChunks
    dsimp only
    by_cases hlt : offset < encoded.length
    · rw [if_pos hlt]
      have hpos : 0 < min encodedChunkSize (encoded.length - offset) :=
        Nat.lt_min.mpr ⟨by decide, by omega⟩
      obtain ⟨cs, hcs, hpayloads, hsize, hleft, hcontrol⟩ :=
        @ih (offset + min encodedChunkSize (encoded.length - offset)) false (by omega)
      refine ⟨⟨chunkParams cols rows first
        (offset + min encodedChunkSize (encoded.length - offset) < encoded.length),
        (encoded.drop offset).take (min encodedChunkSize (encoded.length - offset))⟩ :: cs, ?_, ?_,
        ?_, ?_, ?_⟩
      · rw [kittyChunk_eq, hcs, List.flatMap_cons]
      · rw [List.flatMap_cons, hpayloads, ← List.drop_drop, List.take_append_drop]
      · refine List.forall_mem_cons.mpr ⟨?_, hsize⟩
        rw [List.length_take]
        omega
      · refine iff_of_false (List.cons_ne_nil _ _) (by omega)
      · intro i h
        cases i with
        | zero =>
          have hmore : (decide (offset + min encodedChunkSize (encoded.length - offset) <
              encoded.length)) = decide (0 + 1 < cs.length + 1) := by
            rw [decide_eq_decide, ← Nat.not_le, ← hleft, ← List.length_eq_zero_iff]
            omega
          rw [List.getElem_cons_zero, hmore, beq_self_eq_true, Bool.and_true]
          rfl
        | succ i =>
          rw [List.getElem_cons_succ, hcontrol i (Nat.lt_of_succ_lt_succ h), Bool.false_and]
          simp
    · rw [if_neg hlt]
      refine ⟨[], rfl, ?_, fun c hc => absurd hc List.not_mem_nil, iff_of_true rfl (by omega),
        fun i h => absurd h (Nat.not_lt_zero i)⟩
      rw [List.drop_of_length_le (by omega)]
      rfl

/-! ## What the terminal reads -/

/-- The commands carry the file: the payloads together are its encoding, the first command says what
is sent, and all but the last that more follows. -/
structure Transmits (file : Bytes) (cs : List Command) : Prop where
  decodes : Base64.decode (cs.flatMap Command.payload) = some file
  size : ∀ c ∈ cs, c.payload.length ≤ 4096
  nonempty : cs ≠ []
  control : ∃ cols rows : Int, ∀ i (h : i < cs.length),
    let more := if i + 1 < cs.length then bytes "1" else bytes "0"
    cs[i].control =
      if i = 0 then
        bytes "a=T,f=100,t=d,c=" ++ decimalInt cols ++ bytes ",r=" ++ decimalInt rows ++
          bytes ",m=" ++ more ++ bytes ",q=2"
      else bytes "m=" ++ more

theorem Chunks.readable {cols rows : Int} {file : Bytes} {offset : Nat} {first : Bool}
    {cs : List Command} (h : Chunks cols rows (base64Encode file) offset first cs) :
    ∀ c ∈ cs, GraphicsCommand.Readable c := by
  intro c hc
  obtain ⟨i, hi, rfl⟩ := List.getElem_of_mem hc
  have hcontrol := h.control i hi
  refine ⟨fun hmem => ?_, fun hmem => ?_, fun hmem => ?_⟩
  · exact (mem_chunkParams (hcontrol ▸ hmem)).1 rfl
  · exact (mem_chunkParams (hcontrol ▸ hmem)).2 rfl
  · have hencoded : GraphicsCommand.esc ∈ Base64.encode file := by
      rw [← base64Encode_eq]
      refine List.mem_of_mem_drop (i := offset) ?_
      rw [← h.payloads]
      exact List.mem_flatMap.mpr ⟨_, hc, hmem⟩
    rcases Base64.mem_encode hencoded with hdigit | hpad
    · exact absurd hdigit (by decide +kernel)
    · exact absurd hpad (by decide +kernel)

theorem Chunks.transmits {cols rows : Int} {file : Bytes} {cs : List Command} (hne : file ≠ [])
    (h : Chunks cols rows (base64Encode file) 0 true cs) : Transmits file cs where
  decodes := by rw [h.payloads, List.drop_zero, base64Encode_eq, Base64.decode_encode]
  size := h.size
  nonempty := by
    have hpos := List.length_pos_of_ne_nil hne
    rw [ne_eq, h.some_left, base64Encode_eq, Base64.length_encode]
    omega
  control := by
    refine ⟨cols, rows, fun i hi => ?_⟩
    have hone : decimalInt 1 = bytes "1" := by decide +kernel
    have hzero : decimalInt 0 = bytes "0" := by decide +kernel
    have hmore : decimalInt (if i + 1 < cs.length then 1 else 0) =
        if i + 1 < cs.length then bytes "1" else bytes "0" := by
      rw [apply_ite decimalInt, hone, hzero]
    rw [h.control i hi]
    simp only [chunkParams, decide_eq_true_eq, hmore, Bool.true_and, beq_iff_eq]

/-- The terminal reads the file from what is written for it, and nothing else is written but the end
of the line. -/
theorem renderKitty_transmits {cells : Cells} {readFile : Bytes → Option Bytes}
    {config : ImageOptions} {termWidth : Int} {image : Image} {file : Bytes} {rendered : Rendered}
    (hfile : readFile image.previewPath = some file) (hne : file ≠ [])
    (h : renderKitty cells readFile config termWidth image = some rendered) :
    Transmits file (commands rendered.output) ∧
      rendered.output =
        (commands rendered.output).flatMap GraphicsCommand.write ++ bytes "\r\n" := by
  have hend : GraphicsCommand.esc ∉ bytes "\r\n" := by decide +kernel
  unfold renderKitty at h
  split at h
  · split at h
    · rw [hfile] at h
      cases h
      obtain ⟨cs, hcs, hchunks⟩ := addChunks_spec _ _ (base64Encode file) true
        (Nat.le_of_eq (Nat.zero_add _).symm)
      dsimp only
      rw [hcs, GraphicsCommand.commands_flatMap hchunks.readable hend]
      exact ⟨hchunks.transmits hne, rfl⟩
    · cases h
  · cases h

theorem renderKitty_transmits_png :
    ∃ rendered, renderKitty ⟨fun _ maxWidthCols _ _ _ => maxWidthCols, fun _ _ _ => 1⟩
        (fun path => if path = bytes "p.png" then some [137, 80, 78, 71, 13] else none) ⟨150, 30⟩ 80
        ⟨bytes "p.svg", bytes "p.png", none, some 8, some 6⟩ = some rendered ∧
      Transmits [137, 80, 78, 71, 13] (commands rendered.output) := by
  have h : renderKitty ⟨fun _ maxWidthCols _ _ _ => maxWidthCols, fun _ _ _ => 1⟩
      (fun path => if path = bytes "p.png" then some [137, 80, 78, 71, 13] else none) ⟨150, 30⟩ 80
      ⟨bytes "p.svg", bytes "p.png", none, some 8, some 6⟩ =
        some ⟨bytes "\x1b_Ga=T,f=100,t=d,c=150,r=1,m=0,q=2;iVBORw0=\x1b\\\r\n", 1⟩ := by
    decide +kernel
  exact ⟨_, h, (renderKitty_transmits (by decide +kernel) (by decide) h).1⟩

end TerminalImage
end Raoui
