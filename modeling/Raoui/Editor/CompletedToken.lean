import Raoui.Editor.Cycling
import Raoui.Editor.OpenList

/-!
# Raoui.Editor.CompletedToken

Where the open list starts, and what is typed from there, over runs of keys and of lists that
arrive from R.

* `Anchored`: the list starts at or before the cursor, and one of its items begins with what is
  typed from there.
* `ListOk`: the condition on a message.
* `list_completes_token`: over every run that meets it, what is typed begins with the token that
  the list completes, or is a beginning of it.
-/

namespace Raoui

open Outcome (Meets bind_eq_ok)
open Tty (Key)
open Transition (Run Restrict)

namespace Model

/-- What stands between the start of the list and the cursor. -/
def typedText (m : Model) (cs : Completion) : Bytes :=
  (m.line.sub cs.tokenStart (m.input.cursorPos - cs.tokenStart)).toBytes

structure Anchored (m : Model) (cs : Completion) : Prop where
  nonneg : 0 ≤ cs.tokenStart
  le : cs.tokenStart ≤ m.input.cursorPos
  narrowed : cs.filtered ⊆ cs.items
  item : ∃ item ∈ cs.items, m.typedText cs <+: item.label
  cycling : cs.isInCompletionMode = true → m.input.mode = .normal
  prompting : m.Prompting

def Completes (m : Model) : Prop := ∀ cs, m.input.completion = some cs → m.Anchored cs

/-- A list that is still to be narrowed to what is typed. -/
structure Wide (cs : Completion) : Prop where
  uncycled : cs.isInCompletionMode = false
  nonneg : cs.items ≠ [] → 0 ≤ cs.tokenStart
  narrowed : cs.filtered ⊆ cs.items

/-- What a handler hands to the corrections. -/
def Handed (m : Model) : Prop := ∀ cs, m.input.completion = some cs → Wide cs ∨ m.Anchored cs

section
variable {m m' : Model}

theorem completes_of_none (h : m.input.completion = none) : m.Completes := fun cs hcs => by
  rw [h] at hcs
  cases hcs

theorem SameText.typedText (h : m.SameText m') (cs : Completion) :
    m'.typedText cs = m.typedText cs := by
  unfold Model.typedText
  rw [h.line, h.cursorPos]

theorem Anchored.sameText {cs : Completion} (ha : m.Anchored cs) (h : m.SameText m') :
    m'.Anchored cs where
  nonneg := ha.nonneg
  le := h.cursorPos ▸ ha.le
  narrowed := ha.narrowed
  item := h.typedText cs ▸ ha.item
  cycling hcycling := h.mode.trans (ha.cycling hcycling)
  prompting := ha.prompting.sameText h

theorem Completes.sameText (hm : m.Completes) (h : m.SameText m')
    (hlist : m'.input.completion = m.input.completion) : m'.Completes := fun cs hcs =>
  (hm cs (hlist ▸ hcs)).sameText h

theorem line_of_currentLine {line : UnicodeString} (h : m.currentLine = .ok line) :
    m.line = line := by
  obtain ⟨-, hget⟩ := (nth_safe _ _).of_eq_ok h
  exact line_of_getElem? hget

/-- The items that a filtered list keeps begin with what is typed. -/
theorem anchored_of_filter {cs cs' : Completion} (hp : m.Prompting) (hwide : Wide cs)
    (hle : cs.tokenStart ≤ m.input.cursorPos)
    (hfilter : cs.filter (m.typedText cs) = some cs') : m.Anchored cs' := by
  have htyped : ∀ {cs'' : Completion}, cs''.tokenStart = cs.tokenStart →
      m.typedText cs'' = m.typedText cs := fun h => by
    unfold Model.typedText
    rw [h]
  unfold Completion.filter at hfilter
  dsimp only at hfilter
  split at hfilter
  · cases hfilter
  · rename_i hne
    cases hfilter
    obtain ⟨item, hitem⟩ := List.exists_mem_of_ne_nil _ hne
    obtain ⟨hmem, hprefixed⟩ := List.mem_filter.mp hitem
    refine ⟨hwide.nonneg (List.ne_nil_of_mem hmem), hle, fun _ h => (List.mem_filter.mp h).1,
      ⟨item, hmem, ?_⟩, ?_, hp⟩
    · rw [htyped rfl]
      exact List.isPrefixOf_iff_prefix.mp hprefixed
    · intro hcycling
      have huncycled : cs.explicitSelection = false := hwide.uncycled
      exact absurd (hcycling : cs.explicitSelection = true) (by rw [huncycled]; exact nofun)

theorem Handed.filterCompletions (h : m.Handed) :
    Yields m.filterCompletions fun m' => m.SameText m' ∧ m'.Completes := by
  unfold Model.filterCompletions
  split
  · exact ⟨setCompletion_sameText m none, completes_of_none rfl⟩
  · rename_i hmode
    split
    · rename_i hnone
      exact ⟨SameText.refl m, completes_of_none hnone⟩
    · rename_i cs hcs
      split
      · rename_i hcycling
        refine ⟨SameText.refl m, fun cs' hcs' => ?_⟩
        obtain rfl := Option.some.inj (hcs.symm.trans hcs')
        obtain hwide | hanchored := h cs hcs
        · rw [hwide.uncycled] at hcycling
          cases hcycling
        · exact hanchored
      · rename_i hcycling
        have hwide : Wide cs := (h cs hcs).elim id fun ha =>
          ⟨Bool.eq_false_iff.mpr hcycling, fun _ => ha.nonneg, ha.narrowed⟩
        refine Meets.bind_eq (Yields.any _) fun line hline _ => ?_
        obtain rfl := line_of_currentLine hline
        split
        · exact ⟨setCompletion_sameText m none, completes_of_none rfl⟩
        · rename_i hin
          refine ⟨setCompletion_sameText m _, fun cs' hcs' => ?_⟩
          have hle : cs.tokenStart ≤ m.input.cursorPos := by omega
          exact (anchored_of_filter hmode hwide hle hcs').sameText (setCompletion_sameText m _)

theorem tokenInLine_nonneg (line : UnicodeString) (pos : Int) :
    Yields (Backslash.tokenInLine line pos) fun token =>
      ∀ t, token = some t → 0 ≤ t.tokenStart := by
  refine Meets.via (fun found => ∀ q, found = some q → 0 ≤ q.1) ?_ fun found hfound t ht => ?_
  · unfold Backslash.scanBackslashToken
    split
    · exact nofun
    · refine Yields.read fun i => ?_
      split
      · exact nofun
      · rename_i hneg
        refine Yields.read fun cluster => ?_
        split
        · exact nofun
        · refine Yields.read fun boundary => ?_
          split
          · exact nofun
          · dsimp only
            split
            · exact nofun
            · intro q hq
              cases hq
              exact Int.not_lt.mp hneg
  · obtain ⟨q, hq, rfl⟩ := Option.map_eq_some_iff.mp ht
    exact hfound q hq

theorem makeBackslashCompletion_completes {token : Backslash.Token} (h0 : 0 ≤ token.tokenStart) :
    Yields (m.makeBackslashCompletion token) fun m' => m.SameText m' ∧ m'.Completes := by
  unfold makeBackslashCompletion
  dsimp only
  split
  · exact ⟨setCompletion_sameText m none, completes_of_none rfl⟩
  · have hhanded : (m.setCompletion (some (.create token.tokenStart
        ((Backslash.matchingCommands Backslash.defaultRegistry token.commandNamePrefix).map
          Completion.backslashItem)))).Handed := by
      rintro _ ⟨⟩
      exact .inl ⟨rfl, fun _ => h0, fun _ h => h⟩
    exact hhanded.filterCompletions.mono fun m' ⟨hs, hm'⟩ =>
      ⟨(setCompletion_sameText m _).trans hs, hm'⟩

theorem Completes.completionFollowup (h : m.Completes) :
    Yields m.completionFollowup fun q => m.SameText q.1 ∧ q.1.Completes := by
  have hnone : m.SameText (m.setCompletion none) ∧ (m.setCompletion none).Completes :=
    ⟨setCompletion_sameText m none, completes_of_none rfl⟩
  unfold Model.completionFollowup
  split
  · exact hnone
  · split
    · refine Yields.read fun line => ?_
      split
      · refine Meets.bind (tokenInLine_nonneg _ _) fun token htoken => ?_
        split
        · rename_i token
          exact (makeBackslashCompletion_completes (htoken token rfl)).bind fun m' hm' => hm'
        · refine Yields.read fun n => ?_
          split
          · exact hnone
          · exact ⟨SameText.refl m, h⟩
      · exact ⟨SameText.refl m, h⟩
    · exact ⟨SameText.refl m, h⟩

end

end Model

/-! ## Keys -/

namespace Model

section
variable [Ucd] {m m' : Model}

/-- The line with `text` in place of what stands between `start` and the cursor. -/
def lineWith (m : Model) (start : Int) (text : Bytes) : UnicodeString :=
  .concat [m.line.sub 0 start, readable text,
    m.line.sub m.input.cursorPos (m.line.length - m.input.cursorPos)]

theorem Coherent.replaceToken (h : m.Coherent) (hr : m.InRange) {start : Int} (h0 : 0 ≤ start)
    (hle : start ≤ m.input.cursorPos) (text : Bytes) : m.replaceToken start text =
      m.setCurrentLine (m.lineWith start text) (start + (readable text).length) := by
  have hin : m.input.cursorPos ≤ m.line.length := hr
  unfold Model.replaceToken Model.replaceRange
  rw [h.currentLine]
  dsimp only [Bind.bind, Except.bind]
  rw [Int.max_eq_right h0, Int.max_eq_right hle, Int.min_eq_left hin]
  rfl

/-- What a Tab inserts reads back at its place as it is. -/
def TabReads (m : Model) : Prop :=
  ∀ cs cs' item u, m.input.completion = some cs → cs.cycled = some (cs', item) →
    UnicodeString.ofString item.label = .ok u →
    ((m.lineWith cs.tokenStart item.label).sub cs.tokenStart u.length).toBytes = item.label

/-- Enter does not break the line while the list is cycled through. -/
def EnterSubmits (m : Model) : Prop :=
  m.inCompletionMode = true → m.chosenCommand = .ok none →
    REnter.action m.input.lines m.input.cursorLine m.input.cursorPos m.input.lexCache = .ok .submit

/-- The condition on a key. -/
def KeyStands (m : Model) (key : Key) : Prop :=
  match m.input.mode, key with
  | .normal, .tab => m.TabReads
  | .normal, .enter => m.EnterSubmits
  | _, _ => True

theorem keyStands_char (m : Model) (text : Bytes) : m.KeyStands (.char text) := by
  unfold KeyStands
  split
  · rename_i hkey
    cases hkey
  · rename_i hkey
    cases hkey
  · trivial

omit [Ucd] in
theorem Completes.handed (h : m.Completes) : m.Handed := fun cs hcs => .inr (h cs hcs)

omit [Ucd] in
/-- A list that is not cycled through may be left to the corrections over any text. -/
theorem Completes.uncycled (h : m.Completes) (huncycled : m.inCompletionMode = false)
    (hm' : m'.Lists m.input.completion) : m'.Handed := by
  intro cs hcs
  obtain hnone | hsame := hm'
  · rw [hnone] at hcs
    cases hcs
  · rw [hsame] at hcs
    have ha := h cs hcs
    refine .inl ⟨?_, fun _ => ha.nonneg, ha.narrowed⟩
    unfold inCompletionMode at huncycled
    rw [hcs] at huncycled
    exact huncycled

theorem handleTab_inserts (m : Model) : Yields m.handleTab fun m' => m' = m ∨
    ∃ cs cs' item inserted token, m.input.completion = some cs ∧ cs.cycled = some (cs', item) ∧
      m.replaceToken cs.tokenStart item.label = .ok inserted ∧
      m' = inserted.setCompletion (some (cs'.saveOriginalToken token)) := by
  unfold Model.handleTab
  split
  · exact .inl rfl
  · rename_i cs hcs
    split
    · exact .inl rfl
    · rename_i hne
      refine Meets.via (fun cs₀ => ∃ token, cs₀ = cs.saveOriginalToken token) ?_
        fun cs₀ ⟨token, htoken⟩ => ?_
      · unfold Model.withOriginal
        split
        · exact ⟨cs.originalToken, rfl⟩
        · exact Yields.read fun line => ⟨_, rfl⟩
      · subst htoken
        have hcurrent : (cs.saveOriginalToken token).cycleNext.currentCompletion =
            cs.cycleNext.currentCompletion := (currentCompletion_saveOriginal cs token).1
        have hstart : (cs.saveOriginalToken token).cycleNext.tokenStart = cs.tokenStart :=
          (currentCompletion_saveOriginal cs token).2
        dsimp only
        rw [hcurrent, hstart]
        split
        · exact .inl rfl
        · rename_i item hitem
          refine Meets.bind_eq (Yields.any _) fun inserted hinserted _ => ?_
          refine .inr ⟨cs, cs.cycleNext, item, inserted, token, hcs, ?_, hinserted, ?_⟩
          · unfold Completion.cycled
            rw [if_neg hne, hitem]
            rfl
          · rw [Completion.cycleNext_saveOriginal]

theorem Completes.handleTab (hs : m.Sound) (hr : m.InRange) (h : m.Completes)
    (hreads : m.TabReads) (hmode : m.input.mode = .normal) : Yields m.handleTab Handed := by
  refine (handleTab_inserts m).mono fun m' hm' => ?_
  obtain rfl | ⟨cs, cs', item, inserted, token, hcs, hcycled, hinserted, rfl⟩ := hm'
  · exact h.handed
  · have ha := h cs hcs
    have hcycles := Completion.cycles_of_cycled hcycled
    rw [hs.coherent.replaceToken hr ha.nonneg ha.le] at hinserted
    have hpos0 : 0 ≤ cs.tokenStart + ((readable item.label).length : Int) := by
      have := ha.nonneg
      omega
    have hwf : (m.lineWith cs.tokenStart item.label).WellFormed := UnicodeString.wellFormed_concat _
    obtain ⟨hedits, hline, hpos, -⟩ := (hs.coherent.setCurrentLine hwf hpos0).of_eq_ok hinserted
    have hmode' : inserted.input.mode = .normal := hedits.frame.mode.trans hmode
    have hsame := setCompletion_sameText inserted (some (cs'.saveOriginalToken token))
    have htyped : inserted.typedText (cs'.saveOriginalToken token) <+: item.label := by
      have hlen : inserted.input.cursorPos - cs.tokenStart = (readable item.label).length := by
        rw [hpos]
        omega
      unfold Model.typedText
      rw [show (cs'.saveOriginalToken token).tokenStart = cs.tokenStart from hcycles.start, hlen,
        hline]
      cases hu : UnicodeString.ofString item.label with
      | error e =>
        -- a label that cannot be read leaves nothing between the start and the cursor
        have hempty : readable item.label = .empty := by rw [readable, hu]
        have hnil : ∀ line : UnicodeString, (line.sub cs.tokenStart 0).toBytes = [] := fun line => by
          unfold UnicodeString.sub
          rw [if_pos (.inr (.inl (Int.le_refl 0)))]
          rfl
        rw [hempty]
        exact (hnil _).symm ▸ List.nil_prefix
      | ok u =>
        have hu' : readable item.label = u := by rw [readable, hu]
        rw [hu', hreads cs cs' item u hcs hcycled hu]
    rintro _ ⟨⟩
    refine .inr (Anchored.sameText ?_ hsame)
    exact
      { nonneg := by
          show 0 ≤ cs'.tokenStart
          rw [hcycles.start]
          exact ha.nonneg
        le := by
          show cs'.tokenStart ≤ _
          rw [hcycles.start, hpos]
          omega
        narrowed := by
          show cs'.filtered ⊆ cs'.items
          rw [hcycles.filtered, hcycles.items]
          exact ha.narrowed
        item := by
          refine ⟨item, ?_, htyped⟩
          show item ∈ cs'.items
          rw [hcycles.items]
          exact ha.narrowed (hcycles.filtered ▸ hcycles.chosen)
        cycling := fun _ => hmode'
        prompting := fun s => by
          rw [hmode']
          exact fun hs => by cases hs }

theorem escape_closes (m : Model) :
    Yields (NormalMode.escape m) fun q => q.1.input.completion = none := by
  unfold NormalMode.escape
  split
  · split
    · exact Yields.read fun _ => rfl
    · exact rfl
  · assumption

theorem Completes.enter (hs : m.Sound) (h : m.Completes) (hsubmits : m.EnterSubmits) :
    Yields (NormalMode.enter m) fun q => q.1.Handed := by
  have hcloses := acceptBackslashCompletion_closes (m := m)
  refine Meets.bind_eq hcloses fun r hr hclosed => ?_
  split
  · rename_i result
    exact (completes_of_none (hclosed result rfl)).handed
  · have hnone : m.chosenCommand = .ok none := by
      unfold acceptBackslashCompletion at hr
      obtain ⟨chosen, hchosen, hr⟩ := bind_eq_ok.mp hr
      cases chosen with
      | none => exact hchosen
      | some q =>
        obtain ⟨_, -, hr⟩ := bind_eq_ok.mp hr
        cases hr
    cases hcycling : m.inCompletionMode with
    | false =>
      exact (NormalMode.submit_lists hs.coherent (.inr rfl)).mono fun _ hq => h.uncycled hcycling hq
    | true =>
      unfold NormalMode.submit
      rw [hsubmits hcycling hnone]
      show Yields (NormalMode.submitNormalText m) _
      unfold NormalMode.submitNormalText
      dsimp only
      split
      · intro cs hcs
        have ha := h cs hcs
        exact .inr ⟨ha.nonneg, ha.le, ha.narrowed, ha.item, ha.cycling, ha.prompting⟩
      · exact (clearModelForSubmit_closes _).bind fun _ hm => (completes_of_none hm).handed

omit [Ucd] in
theorem inCompletionMode_of_search (h : m.Completes) (hmode : m.input.mode ≠ .normal) :
    m.inCompletionMode = false := by
  unfold inCompletionMode
  split
  · rename_i cs hcs
    exact Bool.eq_false_iff.mpr fun hcycling => hmode ((h cs hcs).cycling hcycling)
  · rfl

omit [Ucd] in
theorem inCompletionMode_leaveCompletion (m : Model) :
    m.leaveCompletion.inCompletionMode = false := by
  unfold leaveCompletion
  split
  · rfl
  · rename_i h
    exact Bool.eq_false_iff.mpr h

omit [Ucd] in
theorem Completes.leaveCompletion (h : m.Completes) : m.leaveCompletion.Completes := by
  unfold Model.leaveCompletion
  split
  · exact completes_of_none rfl
  · exact h

theorem Completes.normalKey (hs : m.Sound) (hr : m.InRange) (h : m.Completes) {key : Key}
    (hmode : m.input.mode = .normal) (hkey : m.KeyStands key) :
    Yields (NormalMode.applyKey key m) fun q => q.1.Handed := by
  unfold KeyStands at hkey
  rw [hmode] at hkey
  unfold NormalMode.applyKey
  split
  · exact (h.handleTab hs hr hkey hmode).bind fun _ hm => hm
  · exact (escape_closes m).mono fun _ hq => (completes_of_none hq).handed
  · exact h.enter hs hkey
  · have hs' := (leaveCompletion_sameText m).sound hs
    exact (NormalMode.textKey_lists hs'.coherent (.inr rfl) key).mono fun _ hq =>
      h.leaveCompletion.uncycled (inCompletionMode_leaveCompletion m) hq

end

end Model

/-! ## Updates -/

namespace Update

open Model (SameText Completes Handed KeyStands)

section
variable [Ucd] {m : Model}

theorem applyKey_handed (hs : m.Sound) (hw : m.Within) (h : m.Completes) {key : Key}
    (hkey : m.KeyStands key) : Yields (applyKey key m) fun q => q.1.Handed := by
  have hkept : ∀ {x : Res (Model × List Effect)}, m.input.mode ≠ .normal →
      Model.KeepsList m.input.completion x → Yields x fun q => q.1.Handed := fun hmode hx =>
    hx.mono fun _ hq => h.uncycled (Model.inCompletionMode_of_search h hmode) hq
  unfold applyKey
  split
  · rename_i hmode
    exact hkept (by rw [hmode]; exact nofun) (ReadlineMode.applyKey_lists hs (.inr rfl) key)
  · rename_i hmode
    exact hkept (by rw [hmode]; exact nofun) (ShellMode.applyKey_lists hs (.inr rfl) key)
  · rename_i hmode
    exact hkept (by rw [hmode]; exact nofun) (AiMode.applyKey_lists hs.coherent (.inr rfl) key)
  · rename_i hmode
    have hr : m.InRange := (Model.within_of_not_search fun s => by rw [hmode]; exact nofun).mp hw
    exact h.normalKey hs hr hmode hkey
  · rename_i hmode
    exact hkept (by rw [hmode]; exact nofun) (HistorySearch.applyKey_lists (.inr rfl) key)

omit [Ucd] in
theorem handleVerticalCursorMovement_input (m : Model) :
    Yields (handleVerticalCursorMovement m) fun m' => m'.input = m.input ∧ m.SameText m' :=
  Yields.read fun _ => Yields.read fun _ => ⟨rfl, rfl, rfl, rfl, rfl, rfl, rfl, rfl⟩

theorem keyStep_completes (hs : m.Sound) (hw : m.Within) (h : m.Completes) {key : Key}
    (hkey : m.KeyStands key) : Yields (keyStep key m) fun q => q.1.Completes := by
  refine Meets.via (fun q : Model × List Effect => q.1.Completes) ?_ fun q hq => ?_
  · unfold handleKeyInput
    rw [handleResize_self]
    refine (applyKey_handed hs hw h hkey).bind fun q hq => Meets.bind ?_ fun _ hm => hm
    refine hq.filterCompletions.bind fun f ⟨_, hf⟩ => ?_
    refine (handleVerticalCursorMovement_input f).bind fun v ⟨hinput, hsame⟩ => ?_
    have hv : v.Completes := hf.sameText hsame (congrArg Input.completion hinput)
    exact hv.sameText ⟨rfl, rfl, rfl, rfl, rfl, rfl, rfl⟩ rfl
  · obtain ⟨m', effects⟩ := q
    dsimp only
    split
    · exact hq.completionFollowup.mono fun _ hq' => hq'.2
    · exact hq

/-- The condition on a message. A list from R opens, unless it is empty, where the prompt is edited
and no list is cycled through; it has to find as many clusters before the cursor as its token has
bytes. -/
def ListOk (m : Model) (msg : Msg) : Prop :=
  match msg with
  | .key key => m.KeyStands key
  | .response (.completions token items) =>
    m.Prompting → m.inCompletionMode = false → items ≠ [] → (token.length : Int) ≤ m.input.cursorPos
  | _ => False

theorem completionsArrived_completes (h : m.Completes) {token : Bytes} {items : List Bytes}
    (hok : ListOk m (.response (.completions token items))) :
    Yields (completionsArrived token items m) Completes := by
  unfold completionsArrived
  split
  · exact Model.completes_of_none rfl
  · rename_i hmode
    split
    · exact h
    · rename_i hcycling
      have hhanded : (m.setCompletion (some (.create (m.input.cursorPos - token.length)
          (items.map Completion.backendItem)))).Handed := by
        rintro _ ⟨⟩
        refine .inl ⟨rfl, fun hne => ?_, fun _ h => h⟩
        have hle := hok hmode (Bool.eq_false_iff.mpr hcycling) fun hnil => hne (by rw [hnil]; rfl)
        show 0 ≤ m.input.cursorPos - token.length
        omega
      refine hhanded.filterCompletions.bind fun f ⟨_, hf⟩ => ?_
      exact (handleVerticalCursorMovement_input f).mono fun v ⟨hinput, hsame⟩ =>
        hf.sameText hsame (congrArg Input.completion hinput)

theorem step_completes (hs : m.Sound) (hw : m.Within) (h : m.Completes) {msg : Msg}
    (hok : ListOk m msg) : Yields (step msg m) fun q => q.1.Completes := by
  cases msg with
  | key key => exact keyStep_completes hs hw h hok
  | response response =>
    cases response with
    | completions token items =>
      exact (completionsArrived_completes h hok).bind fun _ hm => hm
    | _ => exact hok.elim
  | backslashEffectResult tokenStart originalToken insertedText => exact hok.elim
  | termResize width height => exact hok.elim

theorem steps_completes {msg : Msg} {m' : Model} (hs : m.Sound) (hw : m.Within) (h : m.Completes)
    (hok : ListOk m msg) (hstep : Steps m msg m') : m'.Completes := by
  obtain ⟨effects, hupdate⟩ := hstep
  have hsame := unscrolled_sameText m
  have hok' : ListOk { m with layout.scrollAmount := 0 } msg := hok
  exact (step_completes (hsame.sound hs) (hsame.within hw) (h.sameText hsame rfl) hok').of_eq_ok
    (update_eq_ok hupdate).1

/-- In a run whose messages meet the condition the open list starts at or before the cursor, what
is typed from there begins with the token that its items begin with, or is a beginning of it, and
inserting an item replaces just what is typed. -/
theorem list_completes_token {db : History.Db} {row width height : Int} {m₀ : Model}
    {msgs : List Msg} (h₀ : initialModel (History.init db) row width height = .ok m₀)
    (hrun : Run (Restrict ListOk Steps) m₀ msgs m) {token : Bytes} {items : List Bytes}
    (hitems : ∀ item ∈ items, token <+: item) {cs : Completion}
    (hcs : m.input.completion = some cs)
    (hfrom : cs.items = items.map Completion.backendItem) :
    0 ≤ cs.tokenStart ∧ cs.tokenStart ≤ m.input.cursorPos ∧ m.input.cursorPos ≤ m.line.length ∧
      (token <+: m.typedText cs ∨ m.typedText cs <+: token) ∧
      ∀ label, m.replaceToken cs.tokenStart label =
        m.setCurrentLine (m.lineWith cs.tokenStart label)
          (cs.tokenStart + (readable label).length) := by
  obtain ⟨hs, hw⟩ := reachable_sound h₀ (hrun.mono fun h => h.2)
  have hcompletes : m.Completes := by
    have h₁ : m₀.Completes := by
      unfold initialModel at h₀
      obtain ⟨cache, -, h₀⟩ := bind_eq_ok.mp h₀
      cases h₀
      refine Model.completes_of_none ?_
      rfl
    have hstep : ∀ {m m' : Model} {msg : Msg}, (m.Sound ∧ m.Within) ∧ m.Completes →
        Restrict ListOk Steps m msg m' → (m'.Sound ∧ m'.Within) ∧ m'.Completes := by
      intro m m' msg ⟨⟨hs, hw⟩, h⟩ ⟨hok, hstep⟩
      refine ⟨?_, steps_completes hs hw h hok hstep⟩
      obtain ⟨effects, hupdate⟩ := hstep
      exact update_sound hs hupdate
    exact (Run.invariant (I := fun m => (m.Sound ∧ m.Within) ∧ m.Completes) hstep
      ⟨initialModel_sound (History.kept_init db) h₀, h₁⟩ hrun).2
  have ha := hcompletes cs hcs
  have hr : m.InRange := (Model.within_of_not_search ha.prompting).mp hw
  obtain ⟨item, hitem, htyped⟩ := ha.item
  rw [hfrom] at hitem
  obtain ⟨label, hlabel, rfl⟩ := List.mem_map.mp hitem
  exact ⟨ha.nonneg, ha.le, hr, List.prefix_or_prefix_of_prefix (hitems label hlabel) htyped,
    fun label => hs.coherent.replaceToken hr ha.nonneg ha.le label⟩

end

section

open Model (Cut)
open UnicodeString (Printable asciiLine)

/-- On a printable line a printable item reads back at its place. -/
theorem tabReads_of_printable [Ucd] {m : Model} {above below : List UnicodeString} {l r : Bytes}
    (hucd : PrintableAscii) (h : m.Cut above l r below) (hlist : m.Listed) : m.TabReads := by
  intro cs cs' item u hcs hcycled hu
  obtain ⟨p, t, rfl, hstart⟩ := h.token hlist hcs
  have hcycles := Completion.cycles_of_cycled hcycled
  have hlabel : Printable item.label :=
    (hlist cs hcs).2.2.2 item (.inr (hcycles.filtered ▸ hcycles.chosen))
  rw [UnicodeString.ofString_asciiLine hucd hlabel] at hu
  cases hu
  have hline : m.lineWith cs.tokenStart item.label = asciiLine (p ++ item.label ++ r) := by
    unfold Model.lineWith
    rw [h.modelLine, hstart]
    exact h.replacedLine hucd hlabel
  rw [hline, hstart, UnicodeString.length_asciiLine, UnicodeString.sub_asciiLine (by simp),
    List.append_assoc, List.drop_left, List.take_left]
  rfl

attribute [local instance] asciiUcd

/-- `me` is typed, the list opens and a Tab puts its first item in place of it. -/
theorem list_completes_token_me : ∃ m₀ m cs,
    initialModel (History.init ⟨[], []⟩) 1 80 24 = .ok m₀ ∧
    Run (Restrict ListOk Steps) m₀ [.key (.char (bytes "m")), .key (.char (bytes "e")),
      .response (.completions (bytes "me") [bytes "mean", bytes "median"]), .key .tab] m ∧
    m.input.completion = some cs ∧ 0 ≤ cs.tokenStart ∧ cs.tokenStart ≤ m.input.cursorPos ∧
    m.input.cursorPos ≤ m.line.length ∧
    (bytes "me" <+: m.typedText cs ∨ m.typedText cs <+: bytes "me") := by
  obtain ⟨m₀, m₁, m₂, m₃, m, cs₃, cs, h₀, hm, he, hpos₂, hlist, hlines, hline, hpos, hmode,
      hcs₃, huncycled, h0, hle, hitems₃, hfiltered₃, htab, hcs, hitems⟩ :
      ∃ m₀ m₁ m₂ m₃ m cs₃ cs, initialModel (History.init ⟨[], []⟩) 1 80 24 = .ok m₀ ∧
      next m₀ (.key (.char (bytes "m"))) = some m₁ ∧
      next m₁ (.key (.char (bytes "e"))) = some m₂ ∧ m₂.input.cursorPos = 2 ∧
      next m₂ (.response (.completions (bytes "me") [bytes "mean", bytes "median"])) = some m₃ ∧
      m₃.input.lines = [asciiLine (bytes "me")] ∧ m₃.input.cursorLine = 0 ∧
      m₃.input.cursorPos = 2 ∧ m₃.input.mode = .normal ∧ m₃.input.completion = some cs₃ ∧
      cs₃.isInCompletionMode = false ∧ 0 ≤ cs₃.tokenStart ∧ cs₃.tokenStart ≤ m₃.input.cursorPos ∧
      cs₃.items = [bytes "mean", bytes "median"].map Completion.backendItem ∧
      cs₃.filtered = cs₃.items ∧ next m₃ (.key .tab) = some m ∧ m.input.completion = some cs ∧
      cs.items = [bytes "mean", bytes "median"].map Completion.backendItem :=
    ⟨_, _, _, _, _, _, _, rfl, rfl, rfl, rfl, rfl, rfl, rfl, rfl, rfl, rfl, rfl, by decide,
      by decide, rfl, rfl, rfl, rfl, rfl⟩
  have hme : Printable (bytes "me") := by decide
  have hprintable : ∀ label ∈ [bytes "mean", bytes "median"], Printable label := by
    decide
  have hcut : m₃.Cut [] (bytes "me") [] [] := ⟨hlines, hline, hpos, hme, nofun⟩
  have hlisted : m₃.Listed := by
    intro cs' hcs'
    obtain rfl := Option.some.inj (hcs₃.symm.trans hcs')
    refine ⟨huncycled, h0, hle, fun item hitem => ?_⟩
    rw [hfiltered₃, or_self, hitems₃] at hitem
    obtain ⟨label, hlabel, rfl⟩ := List.mem_map.mp hitem
    exact hprintable label hlabel
  have hok : ListOk m₃ (.key .tab) := by
    show m₃.KeyStands .tab
    unfold KeyStands
    rw [hmode]
    exact tabReads_of_printable printableAscii_asciiUcd hcut hlisted
  have hrun : Run (Restrict ListOk Steps) m₀ [.key (.char (bytes "m")), .key (.char (bytes "e")),
      .response (.completions (bytes "me") [bytes "mean", bytes "median"]), .key .tab] m := by
    refine .cons ⟨Model.keyStands_char m₀ _, steps_of_next hm⟩
      (.cons ⟨Model.keyStands_char m₁ _, steps_of_next he⟩
      (.cons ⟨fun _ _ _ => ?_, steps_of_next hlist⟩ (.cons ⟨hok, steps_of_next htab⟩ .nil)))
    rw [hpos₂]
    decide
  have hextend : ∀ item ∈ [bytes "mean", bytes "median"], bytes "me" <+: item := by decide
  obtain ⟨hstart, hbefore, hwithin, htyped, -⟩ := list_completes_token h₀ hrun hextend hcs hitems
  exact ⟨m₀, m, cs, h₀, hrun, hcs, hstart, hbefore, hwithin, htyped⟩

/-- Backspace leaves the list open over what is left of the token. -/
theorem backspace_shortens_token : ∃ m₀ m cs,
    initialModel (History.init ⟨[], []⟩) 1 80 24 = .ok m₀ ∧
    Run Steps m₀ [.key (.char (bytes "m")), .key (.char (bytes "e")), .key (.char (bytes "a")),
      .response (.completions (bytes "mea") [bytes "mean", bytes "measure"]), .key .backspace] m ∧
    m.input.completion = some cs ∧
    cs.items = [bytes "mean", bytes "measure"].map Completion.backendItem ∧
    ¬ (0 ≤ cs.tokenStart ∧ cs.tokenStart ≤ m.input.cursorPos ∧
      bytes "mea" <+: (m.line.sub cs.tokenStart (m.line.length - cs.tokenStart)).toBytes) := by
  obtain ⟨m₀, m, cs, h₀, hrun, hcs, hitems, htext⟩ : ∃ m₀ m cs,
      initialModel (History.init ⟨[], []⟩) 1 80 24 = .ok m₀ ∧
      Transition.exec next m₀ [.key (.char (bytes "m")), .key (.char (bytes "e")),
        .key (.char (bytes "a")),
        .response (.completions (bytes "mea") [bytes "mean", bytes "measure"]),
        .key .backspace] = some m ∧
      m.input.completion = some cs ∧
      cs.items = [bytes "mean", bytes "measure"].map Completion.backendItem ∧
      (m.line.sub cs.tokenStart (m.line.length - cs.tokenStart)).toBytes = bytes "me" :=
    ⟨_, _, _, rfl, rfl, rfl, rfl, rfl⟩
  refine ⟨m₀, m, cs, h₀, (Transition.run_of_exec hrun).mono steps_of_next, hcs, hitems, ?_⟩
  rintro ⟨-, -, hbegins⟩
  rw [htext] at hbegins
  revert hbegins
  decide

end

end Update

end Raoui
