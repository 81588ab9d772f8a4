import Raoui.Editor.SearchKeys
import Raoui.Editor.Returns
import Raoui.Lib.Transition

/-!
# Raoui.Editor.SearchRows

What the history-search pager shows.

* `packFrom_eq`: the packing loop shows the entries that follow, each with its own height, as long
  as the budget lasts.
* `viewRows_packed`: what the rows are when the selection is in the list.
* `viewRows_run`: no sequence of keys takes the selection out of the list.
-/

namespace Raoui

namespace SearchPager

/-- `rows` shows the beginning of entry `i` with these lines, and says how much of it is hidden. -/
structure IsBlock (i : Nat) (lines : List Bytes) (rows : List Row) : Prop where
  shown : rows ≠ []
  entry : ∀ r ∈ rows, r.entryIndex = i
  starts : rows.map Row.line <+: lines
  hidden : ∀ r, rows.getLast? = some r → r.hiddenLines = lines.length - rows.length

/-- What a budget of `maxRows` rows shows of a list: the entries from `start` to `stop`, one block
after the other. -/
structure Packed (maxRows selected : Int) (found : List (Bytes × Bytes)) (rows : List Row)
    (start stop : Nat) (block : Nat → List Row) : Prop where
  length_le : rows.length ≤ maxRows
  rows_eq : rows = (List.range' start (stop - start)).flatMap block
  stop_le : stop ≤ found.length
  isBlock : ∀ i entry, start ≤ i → i < stop → found[i]? = some entry →
    IsBlock i (linesOf entry) (block i)
  start_le : start ≤ selected
  lt_stop : selected < stop
  height : ∀ entry, found[selected.toNat]? = some entry →
    ((block selected.toNat).length : Int) =
      min ((linesOf entry).length : Int) (max 1 (maxRows - min 3 ((found.length : Int) - 1)))
  context : min 3 (min ((found.length : Int) - 1) (maxRows - 1)) ≤ (stop : Int) - start - 1

/-! ## One entry -/

theorem linesOf_length_pos (entry : Bytes × Bytes) : 0 < (linesOf entry).length :=
  List.length_pos_iff.mpr (splitOnChar_ne_nil _ _)

theorem entryRows_length {i : Nat} {height : Int} {lines : List Bytes} (h0 : 0 ≤ height)
    (hle : height ≤ lines.length) : ((entryRows i height lines).length : Int) = height := by
  rw [entryRows, List.length_mapIdx, List.length_take]
  omega

theorem entryRows_isBlock {i : Nat} {height : Int} {lines : List Bytes} (h1 : 1 ≤ height)
    (hle : height ≤ lines.length) : IsBlock i lines (entryRows i height lines) := by
  have hlen := entryRows_length (i := i) (show 0 ≤ height by omega) hle
  refine ⟨fun hnil => ?_, fun r hr => ?_, ?_, fun r hr => ?_⟩
  · rw [hnil] at hlen
    simp only [List.length_nil] at hlen
    omega
  · obtain ⟨j, hj, rfl⟩ := List.mem_mapIdx.mp hr
    rfl
  · refine ⟨lines.drop height.toNat, ?_⟩
    have hmap : (entryRows i height lines).map Row.line = lines.take height.toNat := by
      refine List.ext_getElem (by simp [entryRows]) fun j hj hj' => ?_
      simp [entryRows]
    rw [hmap, List.take_append_drop]
  · have hlast : (entryRows i height lines).length - 1 = height.toNat - 1 := by omega
    rw [hlen]
    rw [List.getLast?_eq_getElem?, hlast, entryRows, List.getElem?_mapIdx,
      Option.map_eq_some_iff] at hr
    obtain ⟨line, -, rfl⟩ := hr
    exact if_pos (by omega)

/-! ## The packing loop -/

/-- The height of entry `i` in the pager. -/
def heightOf (selected selectedHeight : Int) (i : Nat) : Int :=
  if (i : Int) = selected then selectedHeight else 1

def blockOf (selected selectedHeight : Int) (found : List (Bytes × Bytes)) (i : Nat) : List Row :=
  match found[i]? with
  | some entry => entryRows i (heightOf selected selectedHeight i) (linesOf entry)
  | none => []

/-- How many entries from `i` on a budget has room for: behind the selection one a row, in front of
it the selection's block still has to fit. -/
def roomFor (selected selectedHeight : Int) (i : Nat) (budget : Int) : Nat :=
  if (i : Int) ≤ selected then (budget - selectedHeight + 1).toNat else budget.toNat

theorem roomFor_succ {selected selectedHeight : Int} {i : Nat} {budget : Int} (hbudget : 0 < budget)
    (hfits : (i : Int) ≤ selected → selected - i + selectedHeight ≤ budget) :
    roomFor selected selectedHeight i budget =
      roomFor selected selectedHeight (i + 1) (budget - heightOf selected selectedHeight i) + 1 := by
  unfold roomFor heightOf
  push_cast
  split_ifs <;> omega

theorem packFrom_eq {selected selectedHeight : Int} (found : List (Bytes × Bytes))
    (hheight : 1 ≤ selectedHeight) {i : Nat} {budget : Int}
    (hfits : (i : Int) ≤ selected → selected - i + selectedHeight ≤ budget) :
    packFrom selected selectedHeight i budget (found.drop i) =
      (List.range' i (min (found.length - i) (roomFor selected selectedHeight i budget))).flatMap
        (blockOf selected selectedHeight found) := by
  induction hrest : found.drop i generalizing i budget with
  | nil =>
    have : found.length - i = 0 := by
      rw [← List.length_drop, hrest]
      rfl
    rw [this, Nat.zero_min]
    rfl
  | cons entry rest ih =>
    have hentry : found[i]? = some entry := by
      rw [← List.head?_drop, hrest]
      rfl
    have hdrop : found.drop (i + 1) = rest := by
      rw [← List.drop_drop, hrest]
      rfl
    have hlen : found.length - i = found.length - (i + 1) + 1 := by
      have := congrArg List.length hrest
      rw [List.length_drop, List.length_cons] at this
      omega
    unfold packFrom
    split
    · rename_i hbudget
      have hheightOf : (if (i : Int) = selected then min selectedHeight budget else 1) =
          heightOf selected selectedHeight i := by
        unfold heightOf
        split
        · have := hfits (by omega)
          omega
        · rfl
      have hfits' : ((i + 1 : Nat) : Int) ≤ selected →
          selected - (i + 1 : Nat) + selectedHeight ≤
            budget - heightOf selected selectedHeight i := by
        intro hle
        rw [heightOf, if_neg (by omega)]
        have := hfits (by omega)
        push_cast
        omega
      rw [roomFor_succ hbudget hfits, hlen, Nat.add_min_add_right, List.range'_succ,
        List.flatMap_cons, ← ih hfits' hdrop, hheightOf, blockOf, hentry]
    · rename_i hbudget
      have : roomFor selected selectedHeight i budget = 0 := by
        unfold roomFor
        split
        · have := hfits ‹_›
          omega
        · omega
      rw [this, Nat.min_zero]
      rfl

theorem packFrom_length_le {selected selectedHeight : Int} (hheight : 0 ≤ selectedHeight) (i : Nat)
    {budget : Int} (hbudget : 0 ≤ budget) (entries : List (Bytes × Bytes)) :
    ((packFrom selected selectedHeight i budget entries).length : Int) ≤ budget := by
  induction entries generalizing i budget with
  | nil => exact hbudget
  | cons entry rest ih =>
    unfold packFrom
    split
    · have hrows (height : Int) (h0 : 0 ≤ height) :
          ((entryRows i height (linesOf entry)).length : Int) ≤ height := by
        rw [entryRows, List.length_mapIdx, List.length_take]
        omega
      rw [List.length_append]
      push_cast
      split
      · have := ih (i + 1) (show 0 ≤ budget - min selectedHeight budget by omega)
        have := hrows (min selectedHeight budget) (by omega)
        omega
      · have := ih (i + 1) (show 0 ≤ budget - 1 by omega)
        have := hrows 1 (by omega)
        omega
    · exact hbudget

/-! ## The pager -/

theorem viewRows_packed {maxRows selected : Int} {found : List (Bytes × Bytes)} (hrows : 1 ≤ maxRows)
    (h0 : 0 ≤ selected) (hlt : selected < found.length) : ∃ rows start stop block,
      viewRows maxRows selected found = .ok rows ∧
      Packed maxRows selected found rows start stop block := by
  obtain ⟨entry, hentry⟩ : ∃ entry, found[selected.toNat]? = some entry :=
    ⟨_, List.getElem?_eq_getElem (show selected.toNat < found.length by omega)⟩
  have hlines := linesOf_length_pos entry
  obtain ⟨H, hH⟩ : ∃ H, min ((linesOf entry).length : Int)
    (max 1 (maxRows - min minContext ((found.length : Int) - 1))) = H := ⟨_, rfl⟩
  obtain ⟨start, hstart⟩ : ∃ start, (max 0 (selected - (maxRows - H))).toNat = start := ⟨_, rfl⟩
  have hview : viewRows maxRows selected found =
      .ok (packFrom selected H start maxRows (found.drop start)) := by
    unfold viewRows
    dsimp only
    rw [if_neg (by omega), if_neg (not_not.mpr ⟨h0, hlt⟩), nth_eq h0 hentry, ← hstart, ← hH]
    rfl
  unfold minContext at hH
  have hheight : 1 ≤ H := by omega
  have hmax : H ≤ maxRows := by omega
  have hroom : roomFor selected H start maxRows = (maxRows - H + 1).toNat :=
    if_pos (by omega)
  have hpack := packFrom_eq found hheight
    (show (start : Int) ≤ selected → selected - start + H ≤ maxRows by omega)
  rw [hroom] at hpack
  refine ⟨_, start, start + min (found.length - start) (maxRows - H + 1).toNat,
    blockOf selected H found, hview, ?_⟩
  have hblock (i : Nat) {entry' : Bytes × Bytes} (hi : found[i]? = some entry') :
      blockOf selected H found i = entryRows i (heightOf selected H i) (linesOf entry') := by
    rw [blockOf, hi]
  have hheightOf : heightOf selected H selected.toNat = H := if_pos (by omega)
  refine ⟨packFrom_length_le (by omega) _ (by omega) _, ?_, by omega, fun i entry' hstart hstop hi => ?_,
    by omega, by omega, fun entry' hi => ?_, by omega⟩
  · rw [hpack, Nat.add_sub_cancel_left]
  · have hpos := linesOf_length_pos entry'
    rw [hblock i hi]
    refine entryRows_isBlock ?_ ?_ <;> unfold heightOf <;> split
    · exact hheight
    · exact Int.le_refl 1
    · obtain rfl : entry = entry' := by
        rw [show i = selected.toNat by omega, hentry] at hi
        exact Option.some_inj.mp hi
      omega
    · omega
  · obtain rfl : entry = entry' := Option.some_inj.mp (hentry.symm.trans hi)
    rw [hblock _ hi, hheightOf, entryRows_length (by omega) (by omega)]
    exact hH.symm

end SearchPager

/-! ## The selection -/

/-- The selection is an entry of the list, if the list has any. -/
structure SearchState.SelectsEntry (s : SearchState) : Prop where
  nonneg : 0 ≤ s.selected
  lt : s.found ≠ [] → s.selected < s.found.length

def Model.SelectsEntry (m : Model) : Prop :=
  ∀ s, m.input.mode = .historySearch s → s.SelectsEntry

theorem Model.selectsEntry_of_search {m : Model} {s : SearchState}
    (hmode : m.input.mode = .historySearch s) (hs : s.SelectsEntry) : m.SelectsEntry := by
  intro s' hs'
  rw [hmode] at hs'
  cases hs'
  exact hs

theorem Model.SelectsEntry.of_mode {m m' : Model} (h : m.SelectsEntry)
    (hmode : m'.input.mode = m.input.mode) : m'.SelectsEntry := fun s hs => h s (hmode ▸ hs)

namespace HistorySearch

open Outcome (Meets)
open Transition (Run)
open Tty (Key)

theorem freshState_selectsEntry (history : History) (search : UnicodeString) :
    (freshState history search).SelectsEntry :=
  ⟨Int.le_refl 0, fun hne => Int.ofNat_lt.mpr (List.length_pos_iff.mpr hne)⟩

theorem searchAndUpdate_selectsEntry (m : Model) : Yields (searchAndUpdate m) Model.SelectsEntry :=
  (Yields.any _).bind fun search _ =>
    Model.selectsEntry_of_search rfl (freshState_selectsEntry _ search)

variable {m : Model}

theorem moveSelection_selectsEntry (h : m.SelectsEntry) (amount : Int) :
    Yields (moveSelection m amount) Model.SelectsEntry := by
  refine (Yields.any _).bind fun state _ => ?_
  show Yields (if _ then _ else _) _
  split
  · exact h
  · rename_i hn
    refine Model.selectsEntry_of_search rfl ⟨?_, fun _ => ?_⟩
    · show 0 ≤ max 0 _
      omega
    · show max 0 (min ((state.found.length : Int) - 1) (state.selected + amount)) < state.found.length
      omega

/-- What moves in the query leaves the mode alone. -/
theorem moves_selectsEntry (h : m.SelectsEntry) {α : Type} (x : Res α) (f : α → Model)
    (hmode : ∀ a, (f a).input.mode = m.input.mode) :
    Yields (do return f (← x)) Model.SelectsEntry :=
  (Yields.any _).bind fun a _ => h.of_mode (hmode a)

theorem otherKey_selectsEntry (h : m.SelectsEntry) (name : String) :
    Yields (otherKey name m) Model.SelectsEntry := by
  unfold otherKey
  split
  · exact (Yields.any _).bind fun search _ => moves_selectsEntry h _ _ fun _ => rfl
  · exact (Yields.any _).bind fun search _ => moves_selectsEntry h _ _ fun _ => rfl
  · exact h

theorem moveRight_selectsEntry (h : m.SelectsEntry) : Yields (moveRight m) Model.SelectsEntry := by
  refine (Yields.any _).bind fun search _ => ?_
  show Yields (if _ then _ else _) _
  split
  · exact h
  · exact h

theorem moveLeft_selectsEntry (h : m.SelectsEntry) : (moveLeft m).SelectsEntry := by
  unfold moveLeft
  split
  · exact h
  · exact h

section
variable [Ucd]

theorem cancel_selectsEntry (m : Model) : Yields (cancel m) Model.SelectsEntry :=
  (Yields.any _).bind fun cache _ s hs => by cases hs

theorem submit_selectsEntry (m : Model) : Yields (submit m) Model.SelectsEntry := by
  refine (Yields.any _).bind fun state _ => (Yields.any _).bind fun entry _ => ?_
  split
  · exact cancel_selectsEntry m
  · refine (Yields.any _).bind fun lines _ => (Yields.any _).bind fun lastLine _ => ?_
    have hmode (name : Bytes) : Yields (modeOfHistoryString name) fun mode =>
        ∀ s, mode ≠ .historySearch s :=
      .of_ok fun _ heq => (Model.modeOfHistoryString_safe name).of_eq_ok heq
    refine (hmode _).bind fun mode hmode => (Yields.any _).bind fun cache _ s hs => ?_
    exact absurd hs (hmode s)

theorem enter_selectsEntry (m : Model) : Yields (enter m) Model.SelectsEntry :=
  (Yields.any _).bind fun _ _ =>
    Model.selectsEntry_of_search rfl (freshState_selectsEntry _ _)

theorem ctrlKey_selectsEntry (h : m.SelectsEntry) (c : Char) :
    Yields (ctrlKey c m) Model.SelectsEntry := by
  unfold ctrlKey
  split
  · exact cancel_selectsEntry m
  · exact moveSelection_selectsEntry h _
  · exact moveSelection_selectsEntry h _
  · refine (Yields.any _).bind fun search _ => ?_
    show Yields (if _ then _ else _) _
    split
    · exact cancel_selectsEntry m
    · exact (Yields.any _).bind fun m' _ => searchAndUpdate_selectsEntry m'
  · exact (Yields.any _).bind fun m' _ => searchAndUpdate_selectsEntry m'
  · exact h
  · exact moves_selectsEntry h _ _ fun _ => rfl
  · exact h

/-- A key that edits the query searches anew, and one that moves in the list stays in it. -/
theorem applyKey_selectsEntry (h : m.SelectsEntry) (key : Key) :
    Yields (applyKey key m) fun r => r.1.SelectsEntry := by
  refine Meets.via Model.SelectsEntry ?_ fun m' h' => h'
  cases key with
  | ctrl c => exact ctrlKey_selectsEntry h c
  | escape => exact cancel_selectsEntry m
  | enter => exact submit_selectsEntry m
  | up => exact moveSelection_selectsEntry h _
  | down => exact moveSelection_selectsEntry h _
  | other name => exact otherKey_selectsEntry h name
  | char c => exact (Yields.any _).bind fun m' _ => searchAndUpdate_selectsEntry m'
  | backspace =>
    refine (Yields.any _).bind fun search _ => ?_
    show Yields (if _ then _ else _) _
    split
    · exact cancel_selectsEntry m
    · exact (Yields.any _).bind fun m' _ => searchAndUpdate_selectsEntry m'
  | left => exact moveLeft_selectsEntry h
  | right => exact moveRight_selectsEntry h
  | paste text => exact (Yields.any _).bind fun m' _ => searchAndUpdate_selectsEntry m'
  | _ => exact h

/-! ## Runs of keys -/

/-- A key in a history search. Since the key before it the program may have changed anything but
the search. -/
inductive Step (m : Model) (key : Key) (m' : Model) : Prop where
  | key {m₁ : Model} {s : SearchState} {effects : List Effect} :
      m.input.mode = .historySearch s → m₁.input.mode = m.input.mode →
      applyKey key m₁ = .ok (m', effects) → Step m key m'

theorem Step.selectsEntry {m m' : Model} {key : Key} (h : m.SelectsEntry) (hstep : Step m key m') :
    m'.SelectsEntry := by
  cases hstep with
  | key _ hmode hkey => exact (applyKey_selectsEntry (h.of_mode hmode) key).of_eq_ok hkey

/-- The rows shown in every search state that keys lead to. -/
theorem viewRows_run {m m₀ m' : Model} {keys : List Key} {s : SearchState} {maxRows : Int}
    (henter : enter m = .ok m₀) (hrun : Run Step m₀ keys m') (hmode : m'.input.mode = .historySearch s)
    (hfound : s.found ≠ []) (hrows : 1 ≤ maxRows) : ∃ rows start stop block,
      SearchPager.viewRows maxRows s.selected s.found = .ok rows ∧
      SearchPager.Packed maxRows s.selected s.found rows start stop block := by
  have hinit : m₀.SelectsEntry := (enter_selectsEntry m).of_eq_ok henter
  have hselects := hrun.invariant (fun h hstep => hstep.selectsEntry h) hinit s hmode
  exact SearchPager.viewRows_packed hrows hselects.nonneg (hselects.lt hfound)

end

attribute [local instance] asciiUcd

theorem viewRows_run_down : ∃ m m₀ m' s rows start stop block,
    enter m = .ok m₀ ∧ Run Step m₀ [.down] m' ∧ m'.input.mode = .historySearch s ∧ s.found ≠ [] ∧
    SearchPager.viewRows 4 s.selected s.found = .ok rows ∧
    SearchPager.Packed 4 s.selected s.found rows start stop block := by
  let history := (History.init ⟨[], []⟩).addToHistory (bytes "r") [⟨bytes "x", [0], [1]⟩]
  obtain ⟨m, m₀, m', s, -, henter, hkey, hmode₀, hmode, hfound⟩ : ∃ m m₀ m' s,
      Update.initialModel history 1 80 24 = .ok m ∧ enter m = .ok m₀ ∧
      applyKey .down m₀ = .ok (m', []) ∧ m₀.input.mode = .historySearch s ∧
      m'.input.mode = .historySearch s ∧ s.found ≠ [] :=
    ⟨_, _, _, _, rfl, rfl, rfl, rfl, rfl, List.cons_ne_nil _ _⟩
  have hrun : Run Step m₀ [.down] m' := .cons (.key hmode₀ rfl hkey) .nil
  obtain ⟨rows, start, stop, block, hrows, hpacked⟩ :=
    viewRows_run henter hrun hmode hfound (show (1 : Int) ≤ 4 by decide)
  exact ⟨m, m₀, m', s, rows, start, stop, block, henter, hrun, hmode, hfound, hrows, hpacked⟩

end HistorySearch
end Raoui
