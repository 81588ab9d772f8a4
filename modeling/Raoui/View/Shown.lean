import Raoui.Editor.CacheTokens
import Raoui.View.Highlights
import Raoui.View.Rows

/-!
# Raoui.View.Shown

When a model can be drawn. The lists the renderer pairs have the same lengths in every reachable
model; what can stop it are a second row of a prompt that has room for one, an interpolation or a
pager row that cannot be lexed, a pager row that cannot be read, and, on a terminal without room for
a cluster, a token that starts behind its line.

* `Shown`: the condition on a model.
* `viewOps_returns_iff`: in every reachable model.
-/

namespace Raoui
namespace View

open Outcome (Meets bind_eq_ok bind_pure_returns_iff mapM_returns_iff)
open RHighlight (StyledRange Highlights StartWithin rangesForEntry)
open RLexer (Token)
open TerminalOps (Span Style Op)
open Transition (Run)
open UnicodeString (WellFormed)

/-! ## Lists -/

theorem iteri_returns_iff {α : Type} {f : Nat → α → Res (List Op)} {l : List α} :
    ∀ {i : Nat}, (∃ ops, iteri f i l = .ok ops) ↔
      ∀ k a, l[k]? = some a → ∃ ops, f (i + k) a = .ok ops := by
  induction l with
  | nil => exact ⟨fun _ => nofun, fun _ => ⟨[], rfl⟩⟩
  | cons a rest ih =>
    intro i
    constructor
    · rintro ⟨ops, h⟩ k b hk
      obtain ⟨first, hfirst, h⟩ := bind_eq_ok.mp h
      obtain ⟨later, hlater, -⟩ := bind_eq_ok.mp h
      cases k with
      | zero =>
        cases hk
        exact ⟨first, hfirst⟩
      | succ k =>
        have := ih.mp ⟨later, hlater⟩ k b (by simpa using hk)
        rwa [Nat.add_assoc, Nat.add_comm 1 k] at this
    · intro hall
      obtain ⟨first, hfirst⟩ := hall 0 a rfl
      obtain ⟨later, hlater⟩ := ih.mpr fun k b hk => by
        have := hall (k + 1) b (by simpa using hk)
        rwa [← Nat.add_assoc, Nat.add_right_comm] at this
      exact ⟨first ++ later, bind_eq_ok.mpr ⟨first, hfirst, bind_eq_ok.mpr ⟨later, hlater, rfl⟩⟩⟩

section
variable {α β γ δ : Type} {f : α → β → Res γ} {g : δ → Res β}

/-- Pairing a list with what was computed from one of the same length. -/
theorem map2_mapM_returns_iff {l : List α} {ds : List δ} (hlen : ds.length = l.length) :
    (∃ r, (do map2 f l (← ds.mapM g)) = .ok r) ↔
      ∀ p ∈ l.zip ds, ∃ b, g p.2 = .ok b ∧ ∃ c, f p.1 b = .ok c := by
  induction l generalizing ds with
  | nil =>
    cases ds with
    | nil => exact ⟨fun _ => List.forall_mem_nil _, fun _ => ⟨[], rfl⟩⟩
    | cons d ds => cases hlen
  | cons a l ih =>
    cases ds with
    | nil => cases hlen
    | cons d ds =>
      rw [List.zip_cons_cons, List.forall_mem_cons, ← ih (Nat.succ.inj hlen), List.mapM_cons]
      constructor
      · rintro ⟨r, h⟩
        obtain ⟨bs, hbs, h⟩ := bind_eq_ok.mp h
        obtain ⟨b, hb, hbs⟩ := bind_eq_ok.mp hbs
        obtain ⟨bs', hbs', hcons⟩ := bind_eq_ok.mp hbs
        cases hcons
        obtain ⟨c, hc, h⟩ := bind_eq_ok.mp h
        obtain ⟨cs, hcs, -⟩ := bind_eq_ok.mp h
        exact ⟨⟨b, hb, c, hc⟩, cs, bind_eq_ok.mpr ⟨bs', hbs', hcs⟩⟩
      · rintro ⟨⟨b, hb, c, hc⟩, cs, h⟩
        obtain ⟨bs, hbs, hcs⟩ := bind_eq_ok.mp h
        exact ⟨c :: cs, bind_eq_ok.mpr ⟨b :: bs,
          bind_eq_ok.mpr ⟨b, hb, bind_eq_ok.mpr ⟨bs, hbs, rfl⟩⟩,
          bind_eq_ok.mpr ⟨c, hc, bind_eq_ok.mpr ⟨cs, hcs, rfl⟩⟩⟩⟩

theorem map2_flatten_length {f : α → β → Res (List γ)} {size : α → Nat} {l : List α} {bs : List β}
    {r : List (List γ)} (hl : ∀ a ∈ l, ∀ b c, f a b = .ok c → c.length = size a)
    (h : map2 f l bs = .ok r) : r.flatten.length = (l.map size).sum := by
  induction l generalizing bs r with
  | nil =>
    cases bs with
    | nil =>
      cases h
      rfl
    | cons b bs => cases h
  | cons a l ih =>
    cases bs with
    | nil => cases h
    | cons b bs =>
      obtain ⟨c, hc, h⟩ := bind_eq_ok.mp h
      obtain ⟨cs, hcs, h⟩ := bind_eq_ok.mp h
      cases h
      obtain ⟨ha, hrest⟩ := List.forall_mem_cons.mp hl
      rw [List.flatten_cons, List.length_append, List.map_cons, List.sum_cons, ih hrest hcs,
        ha b c hc]

end

/-! ## Lines -/

section
variable {line : UnicodeString}

theorem sliceBytes_returns_iff {startByte endByte : Nat} :
    (∃ s, line.sliceBytes startByte endByte = .ok s) ↔
      startByte ≤ endByte ∧ endByte ≤ line.bytes.length := by
  unfold UnicodeString.sliceBytes
  split
  · rename_i h
    exact ⟨fun _ => h, fun _ => ⟨_, rfl⟩⟩
  · rename_i h
    refine ⟨?_, fun h' => absurd h' h⟩
    rintro ⟨_, hs⟩
    cases hs

theorem spansOfSegments_returns_iff {segments : List StyledSegment} :
    (∃ spans, spansOfSegments line segments = .ok spans) ↔
      ∀ s ∈ segments, s.startByte ≤ s.endByte ∧ s.endByte ≤ line.bytes.length := by
  refine mapM_returns_iff.trans (forall₂_congr fun s _ => ?_)
  rw [← sliceBytes_returns_iff]
  exact bind_pure_returns_iff

theorem Chain.within {a b : Nat} {row : List StyledSegment} (h : Chain a b row) :
    ∀ s ∈ row, s.startByte ≤ s.endByte ∧ s.endByte ≤ b := by
  induction row generalizing a with
  | nil => exact List.forall_mem_nil _
  | cons s rest ih =>
    obtain ⟨-, hlt, hrest⟩ := h
    exact List.forall_mem_cons.mpr ⟨⟨hlt.le, hrest.le⟩, ih hrest⟩

theorem Cover.within (hline : line.WellFormed) {start : Nat} {rows : List (List StyledSegment)}
    {ks : List Nat} (h : Cover line start rows ks) (hsum : start + ks.sum ≤ line.length) :
    ∀ row ∈ rows, ∀ s ∈ row, s.startByte ≤ s.endByte ∧ s.endByte ≤ line.bytes.length := by
  induction rows generalizing start ks with
  | nil => exact List.forall_mem_nil _
  | cons row rows ih =>
    cases ks with
    | nil => exact h.elim
    | cons k ks =>
      obtain ⟨hrow, hrest⟩ := h
      rw [List.sum_cons, ← Nat.add_assoc] at hsum
      have hle := hline.boundary_le (show start + k ≤ line.length by omega) (Nat.le_refl _)
      rw [UnicodeString.boundary_length] at hle
      exact List.forall_mem_cons.mpr
        ⟨fun s hs => ⟨(hrow.within s hs).1, (hrow.within s hs).2.trans hle⟩, ih hrest hsum⟩

theorem packStyled_sum (width : Int) (ws : List Nat) :
    ∀ rowWidth k, (packStyled width rowWidth k ws).sum = k + ws.length := by
  induction ws with
  | nil =>
    intro rowWidth k
    unfold packStyled
    split
    · rename_i hk
      rw [hk]
      rfl
    · simp
  | cons w ws ih =>
    intro rowWidth k
    unfold packStyled
    split
    · split
      · simp only [List.sum_cons, ih, List.length_cons]
        omega
      · simp only [List.sum_cons, ih, List.length_cons]
        omega
    · split
      · simp only [List.sum_cons, ih, List.length_cons]
        omega
      · simp only [ih, List.length_cons]
        omega

/-- A line can be drawn wherever there is room for a cluster; else its ranges must be within it. -/
theorem lineSpans_returns (hline : line.WellFormed) (width : Int) (ranges : List StyledRange) :
    ∃ rows, wrapStyledLine width line ranges = .ok rows ∧ rows.length = rowCount width line ∧
      ((∃ spans, rows.mapM (spansOfSegments line) = .ok spans) ↔
        (width ≤ 0 → ∀ r ∈ ranges, r.Bounded line.bytes.length)) := by
  by_cases hwidth : width ≤ 0
  · refine ⟨[rangesToSegments ranges], ?_, ?_, ?_⟩
    · rw [wrapStyledLine, if_pos hwidth]
      rfl
    · rw [rowCount, if_pos (.inl hwidth)]
      rfl
    · rw [mapM_returns_iff, List.forall_mem_singleton, spansOfSegments_returns_iff]
      simp only [hwidth, forall_const, rangesToSegments, List.forall_mem_map, StyledRange.Bounded]
  · cases hempty : line.isEmpty with
    | true =>
      refine ⟨[[]], ?_, ?_, ?_⟩
      · rw [wrapStyledLine, if_neg hwidth, hempty]
        rfl
      · rw [rowCount, if_pos (.inr hempty)]
        rfl
      · exact ⟨fun _ h => absurd h hwidth, fun _ => ⟨[[]], rfl⟩⟩
    | false =>
      obtain ⟨rows, hrows, hcover⟩ := wrapStyledLine_covers hline (not_le.mp hwidth) hempty ranges
      refine ⟨_, hrows, ?_, fun _ h => absurd h hwidth, fun _ => ?_⟩
      · rw [List.length_append, List.length_replicate, hcover.length_eq, rowCount,
          if_neg (by simp [hwidth, hempty])]
      · rw [mapM_returns_iff]
        intro row hrow
        rw [spansOfSegments_returns_iff]
        rcases List.mem_append.mp hrow with hrow | hrow
        · refine hcover.within hline ?_ row hrow
          rw [packStyled_sum, hline.widths_length]
          omega
        · rw [List.eq_of_mem_replicate hrow]
          exact List.forall_mem_nil _

end

/-! ## The rows of the prompt -/

/-- The prompt of the mode has a badge for its first row only. -/
def SingleRow : Mode → Prop
  | .readline _ | .shell | .ai => True
  | .normal | .historySearch _ => False

/-- How many rows the prompt takes. -/
def promptRows (m : Model) : Nat := (m.input.lines.map (rowCount m.effectiveWidth)).sum

/-- Row `i` of the prompt is on the screen. -/
def OnScreen (m : Model) (i : Nat) : Prop :=
  skipRows m ≤ i ∧ (i : Int) < skipRows m + m.layout.termHeight

theorem rowPrompt_returns_iff (mode : Mode) (i : Nat) (awaiting : Bool) :
    (∃ p, rowPrompt mode i awaiting = .ok p) ↔ (SingleRow mode → i = 0) := by
  cases mode with
  | normal =>
    refine ⟨fun _ h => h.elim, fun _ => ?_⟩
    cases i <;> cases awaiting <;> exact ⟨_, rfl⟩
  | historySearch s =>
    refine ⟨fun _ h => h.elim, fun _ => ?_⟩
    cases i <;> exact ⟨_, rfl⟩
  | readline _ | shell | ai =>
    cases i with
    | zero => exact ⟨fun _ _ => rfl, fun _ => ⟨_, rfl⟩⟩
    | succ i =>
      refine ⟨?_, fun h => nomatch h trivial⟩
      rintro ⟨_, h⟩
      cases h

theorem viewRow_returns_iff (m : Model) (totalRows i : Nat) (content : List Span) :
    (∃ ops, viewRow m totalRows i content = .ok ops) ↔
      (OnScreen m i → SingleRow m.input.mode → i = 0) := by
  unfold viewRow
  split
  · rename_i hscreen
    rw [← rowPrompt_returns_iff m.input.mode i m.repl.awaitingResponse]
    exact bind_pure_returns_iff.trans ⟨fun h _ => h, fun h => h hscreen⟩
  · rename_i hscreen
    exact ⟨fun _ h => absurd h hscreen, fun _ => ⟨[], rfl⟩⟩

section
variable {m : Model}

theorem mem_zip_of_coherent (h : m.Coherent) {p : UnicodeString × LexerCache.Entry Token RLexer.Mode}
    (hp : p ∈ m.input.lines.zip m.input.lexCache) : p.2.text = p.1.bytes := by
  obtain ⟨k, hk⟩ := List.mem_iff_getElem?.mp hp
  obtain ⟨hline, hentry⟩ := List.getElem?_zip_eq_some.mp hk
  have hcached := congrArg (fun texts => texts[k]?) h.cached
  simp only [LexerCache.texts, List.getElem?_map, hline, hentry, Option.map_some,
    Option.some.injEq] at hcached
  exact hcached

/-- The lines and the cached entries are paired. -/
theorem cache_length (h : m.Coherent) : m.input.lexCache.length = m.input.lines.length := by
  have := congrArg List.length h.cached
  simpa [LexerCache.texts] using this

theorem forall_cache_iff (h : m.Coherent) {P : LexerCache.Entry Token RLexer.Mode → Prop} :
    (∀ p ∈ m.input.lines.zip m.input.lexCache, P p.2) ↔ ∀ e ∈ m.input.lexCache, P e := by
  conv_rhs => rw [← List.map_snd_zip (cache_length h).le]
  simp only [List.forall_mem_map]

variable [Ucd]

theorem wrappedRows_returns_iff (h : m.Coherent) (hgenuine : m.Genuine) :
    (∃ rows, wrappedRows m = .ok rows) ↔
      (∀ e ∈ m.input.lexCache, Highlights e.tokens) ∧
        (m.effectiveWidth ≤ 0 → ∀ e ∈ m.input.lexCache, StartWithin e) := by
  have hpairs : (∃ rows, wrappedRows m = .ok rows) ↔
      ∀ p ∈ m.input.lines.zip m.input.lexCache, Highlights p.2.tokens ∧
        (m.effectiveWidth ≤ 0 → StartWithin p.2) := by
    have hmap := map2_mapM_returns_iff (g := rangesForEntry) (f := fun line ranges => do
      (← wrapStyledLine m.effectiveWidth line ranges).mapM (spansOfSegments line)) (cache_length h)
    refine Iff.trans ?_ (hmap.trans (forall₂_congr fun p hp => ?_))
    · constructor
      · rintro ⟨rows, hrows⟩
        obtain ⟨ranges, hranges, hrows⟩ := bind_eq_ok.mp hrows
        obtain ⟨r, hr, -⟩ := bind_eq_ok.mp hrows
        exact ⟨r, bind_eq_ok.mpr ⟨ranges, hranges, hr⟩⟩
      · rintro ⟨r, hr⟩
        obtain ⟨ranges, hranges, hr⟩ := bind_eq_ok.mp hr
        exact ⟨_, bind_eq_ok.mpr ⟨ranges, hranges, bind_eq_ok.mpr ⟨r, hr, rfl⟩⟩⟩
    · obtain ⟨hline, hentry⟩ := List.of_mem_zip hp
      have htext := mem_zip_of_coherent h hp
      rw [← RHighlight.rangesForEntry_returns_iff]
      have hspans : ∀ ranges, rangesForEntry p.2 = .ok ranges →
          ((∃ spans, (do
            (← wrapStyledLine m.effectiveWidth p.1 ranges).mapM (spansOfSegments p.1)) =
              .ok spans) ↔ (m.effectiveWidth ≤ 0 → StartWithin p.2)) := by
        intro ranges hranges
        obtain ⟨rows, hrows, -, hiff⟩ :=
          lineSpans_returns (h.wellFormed _ hline) m.effectiveWidth ranges
        rw [hrows, ← RHighlight.rangesForEntry_bounded_iff (hgenuine _ hentry) hranges, htext]
        exact hiff
      constructor
      · rintro ⟨ranges, hranges, hdrawn⟩
        exact ⟨⟨ranges, hranges⟩, (hspans ranges hranges).mp hdrawn⟩
      · rintro ⟨⟨ranges, hranges⟩, hwithin⟩
        exact ⟨ranges, hranges, (hspans ranges hranges).mpr hwithin⟩
  rw [hpairs, ← forall_cache_iff h, ← forall_cache_iff h]
  constructor
  · exact fun hall => ⟨fun p hp => (hall p hp).1, fun hwidth p hp => (hall p hp).2 hwidth⟩
  · exact fun hall p hp => ⟨hall.1 p hp, fun hwidth => hall.2 hwidth p hp⟩

theorem wrappedRows_length (h : m.Coherent) {rows : List (List Span)}
    (hrows : wrappedRows m = .ok rows) : rows.length = promptRows m := by
  obtain ⟨ranges, -, hrows⟩ := bind_eq_ok.mp hrows
  obtain ⟨r, hr, hrows⟩ := bind_eq_ok.mp hrows
  cases hrows
  refine map2_flatten_length (fun line hline ranges spans hspans => ?_) hr
  obtain ⟨segments, hsegments, hspans⟩ := bind_eq_ok.mp hspans
  obtain ⟨segments', hsegments', hlen, -⟩ :=
    lineSpans_returns (h.wellFormed line hline) m.effectiveWidth ranges
  rw [hsegments] at hsegments'
  cases hsegments'
  rw [← hlen]
  have hyields : ∀ row ∈ segments, Meets (fun _ : Exn => False) (spansOfSegments line row) _ :=
    fun row _ => Yields.any (spansOfSegments line row)
  have := Meets.mapM segments hyields
  exact (this.of_eq_ok hspans).1

/-! ## The pager -/

omit [Ucd] in
theorem truncated_wellFormed {line : UnicodeString} (h : line.WellFormed) (width : Int) :
    (truncated width line).WellFormed := by
  unfold truncated
  have hrows := h.wrap width
  unfold wrapLine
  cases hwrap : line.wrap width with
  | nil => exact UnicodeString.wellFormed_empty
  | cons row rows => exact hrows row (by rw [hwrap]; exact List.mem_cons_self ..)

omit [Ucd] in
theorem contentWidth_pos (termWidth : Int) (modeString : Bytes) (row : SearchPager.Row) :
    0 < contentWidth termWidth modeString row := by
  unfold contentWidth
  omega

/-- The row can be read, and R code that is not drawn as the selection can be highlighted. -/
def RowShown (layout : Layout) (s : SearchState) (row : SearchPager.Row) : Prop :=
  ∃ line, UnicodeString.ofString row.line = .ok line ∧
    ∀ modeString code, s.found[row.entryIndex]? = some (modeString, code) →
      (row.entryIndex : Int) ≠ s.selected → isPlainMode modeString = false →
      ∃ tokens mode, RLexer.lexLine .normal
          (truncated (contentWidth layout.termWidth modeString row) line).toBytes =
            .ok (tokens, mode) ∧ Highlights tokens

theorem rLineSpans_returns_iff {line : UnicodeString} (h : line.WellFormed) {width : Int}
    (hwidth : 0 < width) :
    (∃ spans, rLineSpans line width = .ok spans) ↔
      ∃ tokens mode, RLexer.lexLine .normal line.toBytes = .ok (tokens, mode) ∧
        Highlights tokens := by
  unfold rLineSpans
  constructor
  · rintro ⟨spans, hspans⟩
    obtain ⟨cache, hcache, hspans⟩ := bind_eq_ok.mp hspans
    obtain ⟨tokens, mode, rest, hlex, hrest, rfl⟩ := LexerCache.createFrom_cons_iff.mp hcache
    cases hrest
    obtain ⟨ranges, hranges, -⟩ := bind_eq_ok.mp hspans
    exact ⟨tokens, mode, hlex, (RHighlight.rangesForEntry_returns_iff _).mp ⟨ranges, hranges⟩⟩
  · rintro ⟨tokens, mode, hlex, hhigh⟩
    have hcache : RLexCache.create [line] = .ok [⟨line.toBytes, tokens, .normal, mode⟩] :=
      LexerCache.createFrom_cons_iff.mpr ⟨tokens, mode, [], hlex, rfl, rfl⟩
    obtain ⟨ranges, hranges⟩ := (RHighlight.rangesForEntry_returns_iff
      ⟨line.toBytes, tokens, .normal, mode⟩).mpr hhigh
    obtain ⟨rows, hrows, -, hiff⟩ := lineSpans_returns h width ranges
    obtain ⟨spans, hspans⟩ := hiff.mpr fun hle => absurd hle (not_le.mpr hwidth)
    have hspans' := mapM_returns_iff.mp ⟨spans, hspans⟩
    rw [hcache]
    dsimp only [Bind.bind, Except.bind]
    rw [hranges]
    dsimp only
    rw [hrows]
    cases rows with
    | nil => exact ⟨[], rfl⟩
    | cons first rest => exact hspans' first (List.mem_cons_self ..)

theorem pagerRow_returns_iff {layout : Layout} {s : SearchState} {i : Nat} {row : SearchPager.Row}
    (hindex : row.entryIndex < s.found.length) :
    (∃ ops, pagerRow layout s i row = .ok ops) ↔
      (layout.promptTopRow + 1 + i ≥ 1 ∧ layout.promptTopRow + 1 + i ≤ layout.termHeight →
        RowShown layout s row) := by
  obtain ⟨entry, hget⟩ : ∃ entry, s.found[row.entryIndex]? = some entry :=
    ⟨_, List.getElem?_eq_getElem hindex⟩
  obtain ⟨modeString, code⟩ := entry
  have hnth : nth s.found row.entryIndex = .ok (modeString, code) :=
    nth_eq (Int.natCast_nonneg _) hget
  unfold pagerRow
  dsimp only
  split
  · rename_i hscreen
    rw [hnth]
    unfold RowShown
    simp only [hscreen, and_self, forall_const, hget, Option.some.injEq, Prod.mk.injEq]
    dsimp only [Bind.bind, Except.bind]
    cases hline : UnicodeString.ofString row.line with
    | error e =>
      constructor
      · rintro ⟨ops, h⟩
        cases h
      · rintro ⟨line, h, -⟩
        cases h
    | ok line =>
      have hwf := truncated_wellFormed (UnicodeString.wellFormed_of_ofString hline)
        (contentWidth layout.termWidth modeString row)
      have hspans := rLineSpans_returns_iff hwf (contentWidth_pos layout.termWidth modeString row)
      by_cases hselected : (row.entryIndex : Int) = s.selected
      · simp only [pure, Except.pure, hselected, if_true]
        exact ⟨fun _ => ⟨line, rfl, fun _ _ _ h => absurd rfl h⟩, fun _ => ⟨_, rfl⟩⟩
      · simp only [pure, Except.pure, hselected, if_false]
        cases hplain : isPlainMode modeString with
        | true =>
          refine ⟨fun _ => ⟨line, rfl, ?_⟩, fun _ => ⟨_, rfl⟩⟩
          rintro _ _ ⟨rfl, rfl⟩ - h
          rw [hplain] at h
          cases h
        | false =>
          constructor
          · rintro ⟨ops, h⟩
            refine ⟨line, rfl, ?_⟩
            rintro _ _ ⟨rfl, rfl⟩ - -
            refine hspans.mp ?_
            cases hspan : rLineSpans (truncated (contentWidth layout.termWidth modeString row) line)
              (contentWidth layout.termWidth modeString row) with
            | ok spans => exact ⟨spans, rfl⟩
            | error e =>
              simp [hspan] at h
          · rintro ⟨line', hline', h⟩
            cases hline'
            obtain ⟨spans, hspan⟩ := hspans.mpr (h modeString code ⟨rfl, rfl⟩ hselected hplain)
            simp [hspan]
  · rename_i hscreen
    exact ⟨fun _ h => absurd h hscreen, fun _ => ⟨[], rfl⟩⟩

omit [Ucd] in
theorem packFrom_entryIndex {selected selectedHeight : Int} {entries : List (Bytes × Bytes)} :
    ∀ {i : Nat} {budget : Int}, ∀ row ∈ SearchPager.packFrom selected selectedHeight i budget entries,
      i ≤ row.entryIndex ∧ row.entryIndex < i + entries.length := by
  induction entries with
  | nil => exact List.forall_mem_nil _
  | cons entry rest ih =>
    intro i budget row hrow
    unfold SearchPager.packFrom at hrow
    split at hrow
    · rw [List.length_cons]
      rcases List.mem_append.mp hrow with hrow | hrow
      · obtain ⟨j, hj, rfl⟩ := List.mem_mapIdx.mp hrow
        exact ⟨Nat.le_refl i, show i < _ by omega⟩
      · have := ih row hrow
        omega
    · cases hrow

omit [Ucd] in
theorem viewRows_entryIndex {maxRows selected : Int} {found : List (Bytes × Bytes)}
    {rows : List SearchPager.Row} (h : SearchPager.viewRows maxRows selected found = .ok rows) :
    ∀ row ∈ rows, row.entryIndex < found.length := by
  intro row hrow
  unfold SearchPager.viewRows at h
  dsimp only at h
  split at h
  · cases h
    cases hrow
  · split at h
    · cases h
    · obtain ⟨entry, -, h⟩ := bind_eq_ok.mp h
      cases h
      have := packFrom_entryIndex row hrow
      rw [List.length_drop] at this
      omega

/-- The rows of the pager on the screen are shown. -/
def PagerShown (m : Model) : Prop :=
  ∀ s rows, m.input.mode = .historySearch s →
    SearchPager.viewRows (SearchPager.maxRows m.layout.termHeight) s.selected s.found = .ok rows →
    ∀ (k : Nat) row, rows[k]? = some row →
      m.layout.promptTopRow + 1 + k ≥ 1 ∧ m.layout.promptTopRow + 1 + k ≤ m.layout.termHeight →
      RowShown m.layout s row

theorem viewSearchPager_returns_iff (h : m.input.mode.Sound) :
    (∃ ops, viewSearchPager m = .ok ops) ↔ PagerShown m := by
  have hother : (∀ s, m.input.mode ≠ .historySearch s) → PagerShown m :=
    fun hno s _ hmode => absurd hmode (hno s)
  unfold viewSearchPager
  split
  · rename_i hmode
    exact ⟨fun _ => hother (by simp [hmode]), fun _ => ⟨[], rfl⟩⟩
  · rename_i hmode
    exact ⟨fun _ => hother (by simp [hmode]), fun _ => ⟨[], rfl⟩⟩
  · rename_i hmode
    exact ⟨fun _ => hother (by simp [hmode]), fun _ => ⟨[], rfl⟩⟩
  · rename_i hmode
    exact ⟨fun _ => hother (by simp [hmode]), fun _ => ⟨[], rfl⟩⟩
  · rename_i s hmode
    rw [hmode] at h
    obtain ⟨rows, hrows, -⟩ :=
      (SearchPager.viewRows_returns (SearchPager.maxRows m.layout.termHeight) h).exists
    rw [hrows]
    refine Iff.trans (iteri_returns_iff (i := 0)) ?_
    simp only [Nat.zero_add]
    constructor
    · intro hall s' rows' hmode' hrows' k row hk
      rw [hmode] at hmode'
      cases hmode'
      rw [hrows] at hrows'
      cases hrows'
      exact (pagerRow_returns_iff (viewRows_entryIndex hrows row (List.mem_of_getElem? hk))).mp
        (hall k row hk)
    · intro hall k row hk
      exact (pagerRow_returns_iff (viewRows_entryIndex hrows row (List.mem_of_getElem? hk))).mpr
        (hall s rows hmode hrows k row hk)

/-! ## The whole view -/

/-- The model can be drawn. -/
structure Shown (m : Model) : Prop where
  /-- A prompt with a badge for one row has no other row on the screen. -/
  rows : SingleRow m.input.mode → ∀ i, 0 < i → i < promptRows m → ¬ OnScreen m i
  /-- Every interpolation in the prompt can be lexed. -/
  highlights : ∀ e ∈ m.input.lexCache, Highlights e.tokens
  /-- Where there is no room for a cluster, no token starts behind its line. -/
  narrow : m.effectiveWidth ≤ 0 → ∀ e ∈ m.input.lexCache, StartWithin e
  pager : PagerShown m

omit [Ucd] in
theorem promptOps_returns_iff (m : Model) (rows : List (List Span)) :
    (∃ ops, iteri (viewRow m rows.length) 0 rows = .ok ops) ↔
      (SingleRow m.input.mode → ∀ i, 0 < i → i < rows.length → ¬ OnScreen m i) := by
  refine iteri_returns_iff.trans ?_
  simp only [viewRow_returns_iff, Nat.zero_add]
  constructor
  · intro hall hsingle i hi hlt hscreen
    have := hall i rows[i] (List.getElem?_eq_getElem hlt) hscreen hsingle
    omega
  · intro hall i row hrow hscreen hsingle
    by_contra hi
    exact hall hsingle i (Nat.pos_of_ne_zero hi) (List.getElem?_eq_some_iff.mp hrow).1 hscreen

theorem viewOps_returns_iff_of_sound (h : m.Sound) (hgenuine : m.Genuine) :
    (∃ ops, viewOps m = .ok ops) ↔ Shown m := by
  obtain ⟨⟨cursorRow, cursorCol⟩, hcursor, -⟩ := h.coherent.cursorTerminalPos_returns.exists
  have hrows := wrappedRows_returns_iff h.coherent hgenuine
  have hpager := viewSearchPager_returns_iff h.mode
  unfold viewOps
  rw [hcursor]
  constructor
  · rintro ⟨ops, hops⟩
    obtain ⟨cursor, -, hops⟩ := bind_eq_ok.mp hops
    obtain ⟨rows, hwrapped, hops⟩ := bind_eq_ok.mp hops
    obtain ⟨promptOps, hprompt, hops⟩ := bind_eq_ok.mp hops
    obtain ⟨pagerOps, hpagerOps, -⟩ := bind_eq_ok.mp hops
    obtain ⟨hhigh, hnarrow⟩ := hrows.mp ⟨rows, hwrapped⟩
    refine ⟨?_, hhigh, hnarrow, hpager.mp ⟨pagerOps, hpagerOps⟩⟩
    rw [← wrappedRows_length h.coherent hwrapped]
    exact (promptOps_returns_iff m rows).mp ⟨promptOps, hprompt⟩
  · intro hshown
    obtain ⟨rows, hwrapped⟩ := hrows.mpr ⟨hshown.highlights, hshown.narrow⟩
    have hsingle := hshown.rows
    rw [← wrappedRows_length h.coherent hwrapped] at hsingle
    obtain ⟨promptOps, hprompt⟩ := (promptOps_returns_iff m rows).mpr hsingle
    obtain ⟨pagerOps, hpagerOps⟩ := hpager.mpr hshown.pager
    exact ⟨_, bind_eq_ok.mpr ⟨_, rfl, bind_eq_ok.mpr ⟨rows, hwrapped, bind_eq_ok.mpr ⟨promptOps,
      hprompt, bind_eq_ok.mpr ⟨pagerOps, hpagerOps, rfl⟩⟩⟩⟩⟩

/-- A reachable model can be drawn exactly when it is `Shown`. -/
theorem viewOps_returns_iff {db : History.Db} {row width height : Int} {m₀ : Model}
    {msgs : List Msg} (h₀ : Update.initialModel (History.init db) row width height = .ok m₀)
    (hrun : Run Update.Steps m₀ msgs m) : (∃ ops, viewOps m = .ok ops) ↔ Shown m :=
  viewOps_returns_iff_of_sound (Update.reachable_sound h₀ hrun).1 (Update.reachable_genuine h₀ hrun)

end

section

attribute [local instance] asciiUcd

theorem viewOps_returns_iff_typed : ∃ m₀ m,
    Update.initialModel (History.init ⟨[], []⟩) 1 80 24 = .ok m₀ ∧
    Run Update.Steps m₀ [.key (.char (bytes "x"))] m ∧ ((∃ ops, viewOps m = .ok ops) ↔ Shown m) := by
  obtain ⟨m₀, m, h₀, hrun⟩ : ∃ m₀ m,
      Update.initialModel (History.init ⟨[], []⟩) 1 80 24 = .ok m₀ ∧
      Transition.exec Update.next m₀ [.key (.char (bytes "x"))] = some m := ⟨_, _, rfl, rfl⟩
  have hrun := (Transition.run_of_exec hrun).mono Update.steps_of_next
  exact ⟨m₀, m, h₀, hrun, viewOps_returns_iff h₀ hrun⟩

/-- A shell command as wide as the prompt leaves no row for the cursor but one without a badge. -/
theorem shell_second_row_asserts : ∃ m₀ m,
    Update.initialModel (History.init ⟨[], []⟩) 1 4 24 = .ok m₀ ∧
    Run Update.Steps m₀ [.key (.char (bytes ";")), .key (.char (bytes "l")),
      .key (.char (bytes "s"))] m ∧ viewOps m = .error .assertFailure := by
  obtain ⟨m₀, m, h₀, hrun, hview⟩ : ∃ m₀ m,
      Update.initialModel (History.init ⟨[], []⟩) 1 4 24 = .ok m₀ ∧
      Transition.exec Update.next m₀ [.key (.char (bytes ";")), .key (.char (bytes "l")),
        .key (.char (bytes "s"))] = some m ∧ viewOps m = .error .assertFailure :=
    ⟨_, _, rfl, rfl, by decide +kernel⟩
  exact ⟨m₀, m, h₀, (Transition.run_of_exec hrun).mono Update.steps_of_next, hview⟩

end

end View
end Raoui
