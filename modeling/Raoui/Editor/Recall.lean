import Raoui.Editor.History
import Raoui.Lib.Outcome
import Raoui.Text.Clusters

/-!
# Raoui.Editor.Recall

History navigation there and back. From index 0, `go_back` visits the entries the draft selects:
those that contain its text and differ from the next newer one. `go_forwards` visits the same ones
in the other direction and ends at the draft.

Both recompute the needle on every call, by comparing the prompt with the text of the entry at the
index. The draft stays the needle as long as an entry's lines read back as its own text
(`Recognised`). They do unless one of them is a lone byte-order mark, which is dropped.

* `goBackFrom_next`, `goForwardsFrom_previous`: one call stops at the neighbouring selected entry.
* `Trail`: the entries shown on the way back, with the index of each.
* `recall_inverse`: the way back and the way forwards.
-/

namespace Raoui
namespace History

open UnicodeString (byteOrderMark)

/-- A mode and the lines typed in it. -/
abbrev Prompt := Bytes × List UnicodeString

/-! ## Runs of calls -/

section
variable [Ucd]

/-- `n` successful `go_back` calls, each passing the entry the last one returned, with the index and
the entry after each; `none` when one of them finds nothing. -/
def goBacks : Nat → History → Prompt → Res (Option (List (Nat × Prompt) × History))
  | 0, t, _ => return some ([], t)
  | n + 1, t, current => do
    let (shown, t) ← t.goBack current
    match shown with
    | none => return none
    | some p =>
      match ← goBacks n t p with
      | none => return none
      | some (rest, t') => return some ((t.currentIndex, p) :: rest, t')

/-- `n` successful `go_forwards` calls, each passing the entry just shown. -/
def goForwardsTimes : Nat → History → Prompt → Res (Option (List Prompt × History))
  | 0, t, _ => return some ([], t)
  | n + 1, t, current => do
    let (shown, t) ← t.goForwards current
    match shown with
    | none => return none
    | some p =>
      match ← goForwardsTimes n t p with
      | none => return none
      | some (rest, t') => return some (p :: rest, t')

/-- One more call at the end. -/
theorem goForwardsTimes_succ {n : Nat} {t t' t'' : History} {current p : Prompt}
    {shown : List Prompt} (h : goForwardsTimes n t current = .ok (some (shown, t')))
    (hlast : t'.goForwards (shown.getLastD current) = .ok (some p, t'')) :
    goForwardsTimes (n + 1) t current = .ok (some (shown ++ [p], t'')) := by
  induction n generalizing t current shown with
  | zero =>
    cases h
    simp only [List.getLastD_nil] at hlast
    simp only [goForwardsTimes, hlast, bind, Except.bind]
    rfl
  | succ n ih =>
    rw [goForwardsTimes] at h ⊢
    obtain ⟨⟨first, t₁⟩, h₁, h⟩ := Outcome.bind_eq_ok.mp h
    rw [h₁]
    cases first with
    | none => cases h
    | some q =>
      dsimp only at h
      obtain ⟨more, h₂, h⟩ := Outcome.bind_eq_ok.mp h
      cases more with
      | none => cases h
      | some more =>
        obtain ⟨rest, t₂⟩ := more
        cases h
        rw [List.getLastD_cons] at hlast
        simp only [bind, Except.bind, ih h₂ hlast]
        rfl

end

/-! ## What a draft selects -/

/-- The entry `k` places before the newest. -/
def newest? (t : History) (k : Nat) : Option Entry := t.history.reverse[k]?

/-- Entry `k` contains the draft's text and differs from the next newer entry. -/
structure Selected (t : History) (draft : List UnicodeString) (k : Nat) (e : Entry) : Prop where
  found : t.newest? k = some e
  differs : 0 < k → t.newest? (k - 1) ≠ some e
  contains : containsSubstring (promptToString draft) e.entryText = true

/-- The record while the draft is navigated from. -/
def navigating (t : History) (draft : Prompt) (k : Nat) : History :=
  { t with currentIndex := k, savedPrompt := some draft, searchNeedle := some draft.2 }

@[simp] theorem navigating_searchNeedle (t : History) (draft : Prompt) (k : Nat) :
    (t.navigating draft k).searchNeedle = some draft.2 := rfl

@[simp] theorem navigating_currentIndex (t : History) (draft : Prompt) (k : Nat) :
    (t.navigating draft k).currentIndex = k := rfl

theorem nthNewest_of_newest? {t : History} {k : Nat} {e : Entry} (h : t.newest? k = some e) :
    nthNewest t k = .ok e := by
  simp only [newest?] at h
  simp only [nthNewest, h]

theorem newest?_of_lt {t : History} {k : Nat} (h : k < t.history.length) :
    ∃ e, t.newest? k = some e := by
  refine ⟨_, List.getElem?_eq_getElem (l := t.history.reverse) ?_⟩
  rwa [List.length_reverse]

/-! ## One entry -/

theorem Selected.lt {t : History} {draft : List UnicodeString} {k : Nat} {e : Entry}
    (h : Selected t draft k e) : k < t.history.length := by
  have hlt := (List.getElem?_eq_some_iff.mp h.found).1
  rwa [List.length_reverse] at hlt

theorem not_duplicate {t : History} {k : Nat} {e : Entry} (he : t.newest? k = some e)
    (hdiffers : 0 < k → t.newest? (k - 1) ≠ some e) : isDuplicateOfPrevious t k = .ok false := by
  unfold isDuplicateOfPrevious
  split
  · rename_i hk
    have hlt : k - 1 < t.history.length := by
      have := (List.getElem?_eq_some_iff.mp he).1
      rw [List.length_reverse] at this
      omega
    obtain ⟨newer, hnewer⟩ := newest?_of_lt hlt
    have hne : e ≠ newer := fun heq => hdiffers hk (heq ▸ hnewer)
    rw [nthNewest_of_newest? he, nthNewest_of_newest? hnewer]
    simp [bind, Except.bind, pure, Except.pure, hne]
  · rfl

/-- Entry `k` contains the needle and differs from the next newer entry. -/
def picks (t : History) (needle : Option (List UnicodeString)) (k : Nat) : Bool :=
  match t.newest? k with
  | none => false
  | some e => (k = 0 || t.newest? (k - 1) ≠ some e) && matchesPrompt needle e.entryText

theorem picks_some_iff {t : History} {draft : List UnicodeString} {k : Nat} {e : Entry}
    (he : t.newest? k = some e) : t.picks (some draft) k = true ↔ Selected t draft k e := by
  simp only [picks, he, Bool.and_eq_true, Bool.or_eq_true, decide_eq_true_eq, matchesPrompt]
  constructor
  · rintro ⟨hdiffers, hcontains⟩
    exact ⟨he, fun hk => hdiffers.resolve_left (Nat.pos_iff_ne_zero.mp hk), hcontains⟩
  · rintro ⟨-, hdiffers, hcontains⟩
    exact ⟨(Nat.eq_zero_or_pos k).imp_right hdiffers, hcontains⟩

/-- Whether an entry is passed over. -/
theorem visit_eq {α : Type} {t : History} {k : Nat} {e : Entry} (he : t.newest? k = some e)
    (found : Entry → Res α) (onwards : Res α) :
    (do
      if ← isDuplicateOfPrevious t k then onwards
      else
        let entry ← nthNewest t k
        if matchesPrompt t.searchNeedle entry.entryText then found entry else onwards) =
      if t.picks t.searchNeedle k then found e else onwards := by
  by_cases hdup : 0 < k ∧ t.newest? (k - 1) = some e
  · have hd : isDuplicateOfPrevious t k = .ok true := by
      unfold isDuplicateOfPrevious
      rw [if_pos hdup.1, nthNewest_of_newest? he, nthNewest_of_newest? hdup.2]
      simp [bind, Except.bind, pure, Except.pure]
    have hp : t.picks t.searchNeedle k = false := by
      simp [picks, he, hdup.2, Nat.pos_iff_ne_zero.mp hdup.1]
    rw [hd, hp]
    rfl
  · have hdiffers : 0 < k → t.newest? (k - 1) ≠ some e := fun hk heq => hdup ⟨hk, heq⟩
    have hp : t.picks t.searchNeedle k = matchesPrompt t.searchNeedle e.entryText := by
      have hd : (decide (k = 0) || decide (t.newest? (k - 1) ≠ some e)) = true := by
        rw [Bool.or_eq_true, decide_eq_true_eq, decide_eq_true_eq]
        exact (Nat.eq_zero_or_pos k).imp_right hdiffers
      simp only [picks, he, hd, Bool.true_and]
    rw [not_duplicate he hdiffers, hp, nthNewest_of_newest? he]
    rfl

/-! ## One call -/

section
variable [Ucd]

/-- The entry's mode and its lines. -/
def Shows (e : Entry) (p : Prompt) : Prop := e.entryMode = p.1 ∧ toUs e.entryText = .ok p.2

/-- What the prompt holds at index `k`: the draft, or the entry selected there. -/
inductive Current (t : History) (draft : Prompt) : Nat → Prompt → Prop where
  | draft : Current t draft 0 draft
  | entry {k : Nat} {e : Entry} {p : Prompt} :
      Selected t draft.2 k e → Shows e p → Current t draft (k + 1) p

/-- The lines of every entry the draft selects read back as its text. -/
def Recognised (t : History) (draft : Prompt) : Prop :=
  ∀ k e lines, Selected t draft.2 k e → toUs e.entryText = .ok lines →
    promptToString lines = e.entryText

/-- The draft stays the needle. -/
theorem updateSearchNeedle_navigating {t : History} {draft p : Prompt} {k : Nat}
    (hrec : t.Recognised draft) (h : Current t draft k p) :
    updateSearchNeedle (t.navigating draft k) p.2 = .ok (t.navigating draft k) := by
  cases h with
  | draft => rfl
  | entry hsel hshow =>
    rename_i k e
    have hmatch : promptMatchesEntry (t.navigating draft (k + 1)) p.2 (k + 1) = .ok true := by
      have hfound : nthNewest (t.navigating draft (k + 1)) k = .ok e :=
        nthNewest_of_newest? hsel.found
      have htext := hrec k e p.2 hsel hshow.2
      have hlt : k < (t.navigating draft (k + 1)).history.length := hsel.lt
      simp only [promptMatchesEntry, Nat.add_sub_cancel]
      rw [if_pos ⟨Nat.succ_pos k, hlt⟩, hfound]
      simp [bind, Except.bind, pure, Except.pure, htext]
    simp only [updateSearchNeedle, navigating] at hmatch ⊢
    rw [hmatch]
    rfl

theorem goBackFrom_succ {t : History} {e : Entry} (fuel : Nat)
    (he : t.newest? t.currentIndex = some e) :
    goBackFrom (fuel + 1) t =
      if t.picks t.searchNeedle t.currentIndex then do
        return (some (e.entryMode, ← toUs e.entryText),
          { t with currentIndex := t.currentIndex + 1 })
      else goBackFrom fuel { t with currentIndex := t.currentIndex + 1 } := by
  rw [goBackFrom]
  exact visit_eq (t := { t with currentIndex := t.currentIndex + 1 }) he _ _

theorem goForwardsFrom_succ {t : History} {e : Entry} (c : Nat) (he : t.newest? c = some e) :
    goForwardsFrom (c + 2) t =
      if t.picks t.searchNeedle c then do
        return (some (e.entryMode, ← toUs e.entryText), { t with currentIndex := c + 1 })
      else goForwardsFrom (c + 1) { t with currentIndex := c + 1 } := by
  rw [goForwardsFrom]
  exact visit_eq (t := { t with currentIndex := c + 1 }) he _ _

/-- One call back stops at the next older selected entry. -/
theorem goBackFrom_next {t t' : History} {draft p : Prompt} {fuel k : Nat}
    (hlen : k + fuel = t.history.length)
    (h : goBackFrom fuel (t.navigating draft k) = .ok (some p, t')) :
    ∃ k' e, k ≤ k' ∧ Selected t draft.2 k' e ∧ Shows e p ∧
      (∀ j e, k ≤ j → j < k' → ¬ Selected t draft.2 j e) ∧ t' = t.navigating draft (k' + 1) := by
  induction fuel generalizing k with
  | zero => cases h
  | succ fuel ih =>
    obtain ⟨e, he⟩ := newest?_of_lt (t := t) (k := k) (by omega)
    rw [goBackFrom_succ (t := t.navigating draft k) fuel he, navigating_searchNeedle,
      navigating_currentIndex] at h
    by_cases hsel : Selected t draft.2 k e
    · have hpick : (t.navigating draft k).picks (some draft.2) k = true := (picks_some_iff he).mpr hsel
      rw [if_pos hpick] at h
      obtain ⟨lines, hlines, h⟩ := Outcome.bind_eq_ok.mp h
      cases h
      exact ⟨k, e, Nat.le_refl k, hsel, ⟨rfl, hlines⟩, fun j e hj hlt => by omega, rfl⟩
    · have hpick : ¬ (t.navigating draft k).picks (some draft.2) k = true :=
        fun hpick => hsel ((picks_some_iff he).mp hpick)
      rw [if_neg hpick] at h
      obtain ⟨k', e', hle, hsel', hshow, hnone, ht⟩ := ih (k := k + 1) (by omega) h
      refine ⟨k', e', by omega, hsel', hshow, ?_, ht⟩
      intro j e'' hj hjk hsel''
      obtain rfl | hj := Nat.eq_or_lt_of_le hj
      · have heq := Option.some.inj (he.symm.trans hsel''.found)
        exact hsel (heq ▸ hsel'')
      · exact hnone j e'' hj hjk hsel''

/-- One call forwards from past entry `c` stops at the next newer selected entry, or at the
draft. -/
theorem goForwardsFrom_previous {t : History} {draft p : Prompt} {k c x : Nat}
    (hk : Current t draft k p) (hkc : k ≤ c) (hc : c < t.history.length)
    (hnone : ∀ j e, k ≤ j → j < c → ¬ Selected t draft.2 j e) :
    goForwardsFrom (c + 1) (t.navigating draft x) = .ok (some p, t.navigating draft k) := by
  induction c generalizing x with
  | zero =>
    obtain rfl := Nat.le_zero.mp hkc
    cases hk
    rfl
  | succ c ih =>
    obtain ⟨e, he⟩ := newest?_of_lt (t := t) (k := c) (by omega)
    rw [goForwardsFrom_succ (t := t.navigating draft x) c he, navigating_searchNeedle]
    obtain rfl | hlt := Nat.eq_or_lt_of_le hkc
    · cases hk with
      | entry hsel hshow =>
        rename_i e'
        obtain rfl : e = e' := Option.some.inj (he.symm.trans hsel.found)
        have hpick : (t.navigating draft x).picks (some draft.2) c = true :=
          (picks_some_iff he).mpr hsel
        rw [if_pos hpick, hshow.2, hshow.1]
        rfl
    · have hpick : ¬ (t.navigating draft x).picks (some draft.2) c = true :=
        fun hpick => hnone c e (by omega) (by omega) ((picks_some_iff he).mp hpick)
      rw [if_neg hpick]
      exact ih (x := c + 1) (by omega) (by omega) fun j e hj hjc => hnone j e hj (by omega)

/-! ## The way back and the way forwards -/

/-- The entries shown on the way back from index `k`, each the next older selected one, with the
index left behind. -/
inductive Trail (t : History) (draft : Prompt) : Nat → List (Nat × Prompt) → Prop where
  | nil {k : Nat} : Trail t draft k []
  | cons {k k' : Nat} {e : Entry} {p : Prompt} {rest : List (Nat × Prompt)} :
      k ≤ k' → Selected t draft.2 k' e → Shows e p →
      (∀ j e, k ≤ j → j < k' → ¬ Selected t draft.2 j e) → Trail t draft (k' + 1) rest →
      Trail t draft k ((k' + 1, p) :: rest)

theorem goBack_navigating {t : History} {draft p : Prompt} {k : Nat} (hrec : t.Recognised draft)
    (h : Current t draft k p) :
    (t.navigating draft k).goBack p =
      goBackFrom (t.history.length - k) (t.navigating draft k) := by
  have hsaved : (if (t.navigating draft k).currentIndex = 0
      then { t.navigating draft k with savedPrompt := some p } else t.navigating draft k) =
      t.navigating draft k := by
    cases h with
    | draft => rfl
    | entry _ _ => exact if_neg (Nat.succ_ne_zero _)
  unfold goBack
  rw [hsaved]
  dsimp only
  rw [updateSearchNeedle_navigating hrec h]
  rfl

theorem goForwards_navigating {t : History} {draft p p' : Prompt} {k k' : Nat} {e : Entry}
    (hrec : t.Recognised draft) (hk : Current t draft k p) (hkk' : k ≤ k')
    (hsel : Selected t draft.2 k' e) (hshow : Shows e p')
    (hnone : ∀ j e, k ≤ j → j < k' → ¬ Selected t draft.2 j e) :
    (t.navigating draft (k' + 1)).goForwards p' = .ok (some p, t.navigating draft k) := by
  unfold goForwards
  rw [updateSearchNeedle_navigating hrec (.entry hsel hshow)]
  exact goForwardsFrom_previous hk hkk' hsel.lt hnone

/-- What `goBacks` shows is a trail. -/
theorem goBacks_trail {t t' : History} {draft p : Prompt} {n k : Nat} {shown : List (Nat × Prompt)}
    (hrec : t.Recognised draft) (hk : Current t draft k p) (hle : k ≤ t.history.length)
    (h : goBacks n (t.navigating draft k) p = .ok (some (shown, t'))) :
    shown.length = n ∧ Trail t draft k shown ∧
      t' = t.navigating draft ((shown.map Prod.fst).getLastD k) := by
  induction n generalizing k p shown with
  | zero =>
    cases h
    exact ⟨rfl, .nil, rfl⟩
  | succ n ih =>
    rw [goBacks, goBack_navigating hrec hk] at h
    obtain ⟨⟨first, t₁⟩, h₁, h⟩ := Outcome.bind_eq_ok.mp h
    cases first with
    | none => cases h
    | some q =>
      obtain ⟨k', e, hkk', hsel, hshow, hnone, rfl⟩ := goBackFrom_next (by omega) h₁
      dsimp only at h
      obtain ⟨more, h₂, h⟩ := Outcome.bind_eq_ok.mp h
      cases more with
      | none => cases h
      | some more =>
        obtain ⟨rest, t₂⟩ := more
        cases h
        obtain ⟨hlen, htrail, ht⟩ := ih (.entry hsel hshow) hsel.lt h₂
        refine ⟨by rw [List.length_cons, hlen], .cons hkk' hsel hshow hnone htrail, ?_⟩
        rw [ht, List.map_cons, List.getLastD_cons]
        rfl

/-- A trail is walked forwards to where it began. -/
theorem Trail.forwards {t : History} {draft p : Prompt} {k : Nat} {shown : List (Nat × Prompt)}
    (hrec : t.Recognised draft) (hk : Current t draft k p) (h : Trail t draft k shown) :
    goForwardsTimes shown.length (t.navigating draft ((shown.map Prod.fst).getLastD k))
        ((shown.map Prod.snd).getLastD p) =
      .ok (some ((p :: shown.map Prod.snd).dropLast.reverse, t.navigating draft k)) := by
  induction h generalizing p with
  | nil => rfl
  | @cons k k' e p' rest hkk' hsel hshow hnone _ ih =>
    have hrest := ih (.entry hsel hshow)
    have hstep := goForwards_navigating hrec hk hkk' hsel hshow hnone
    -- after the rest of the trail the prompt holds the entry it began at
    have hlast : ((p' :: rest.map Prod.snd).dropLast.reverse).getLastD
        ((rest.map Prod.snd).getLastD p') = p' := by
      cases rest with
      | nil => rfl
      | cons r rest =>
        rw [List.map_cons, List.dropLast_cons_cons, List.reverse_cons, List.getLastD_concat]
    rw [← hlast] at hstep
    have h := goForwardsTimes_succ hrest hstep
    simp only [List.length_cons, List.map_cons, List.getLastD_cons, List.dropLast_cons_cons,
      List.reverse_cons] at h ⊢
    exact h

/-- The entries of a trail are selected, at indices that grow. -/
theorem Trail.selected {t : History} {draft : Prompt} {k : Nat} {shown : List (Nat × Prompt)}
    (h : Trail t draft k shown) :
    (∀ i ∈ shown, k < i.1 ∧ ∃ e, Selected t draft.2 (i.1 - 1) e ∧ Shows e i.2) ∧
      (shown.map Prod.fst).Pairwise (· < ·) := by
  induction h with
  | nil => simp
  | @cons k k' e p rest hkk' hsel hshow _ _ ih =>
    obtain ⟨hall, hpair⟩ := ih
    constructor
    · intro i hi
      obtain rfl | hi := List.mem_cons.mp hi
      · exact ⟨Nat.lt_succ_of_le hkk', e, hsel, hshow⟩
      · obtain ⟨hlt, he⟩ := hall i hi
        exact ⟨by omega, he⟩
    · rw [List.map_cons, List.pairwise_cons]
      refine ⟨fun i hi => ?_, hpair⟩
      obtain ⟨j, hj, rfl⟩ := List.mem_map.mp hi
      exact (hall j hj).1

theorem goBacks_succ_eq {t : History} {draft : Prompt} (h : t.currentIndex = 0) (n : Nat) :
    goBacks (n + 1) t draft = goBacks (n + 1) (t.navigating draft 0) draft := by
  obtain ⟨db, entries, index, saved, needle, command, hadError, ordinal⟩ := t
  cases h
  rfl

end

/-! ## Entries that read back as themselves -/

/-- A line that holds the byte-order mark alone. -/
def loneMark : Bytes := Utf8.encodeChar byteOrderMark

theorem eq_loneMark {cs : List Char} (hne : cs ≠ []) (h : UnicodeString.codepoints cs = []) :
    cs = [byteOrderMark] := by
  cases cs with
  | nil => exact absurd rfl hne
  | cons c cs =>
    simp only [UnicodeString.codepoints] at h
    split at h
    · rename_i hc
      cases cs with
      | nil => rw [hc]
      | cons c' cs => cases h
    · cases h

section
variable [Ucd]

theorem toLine_bytes {s : Bytes} {u : UnicodeString} (h : toLine s = .ok u) (hs : s ≠ loneMark) :
    u.toBytes = s := by
  unfold toLine at h
  split at h
  · rename_i u' hu
    cases h
    unfold UnicodeString.ofString at hu
    split at hu
    · rename_i hnil
      cases hu
      exact (List.length_eq_zero_iff.mp hnil).symm
    · rename_i hnil
      split at hu
      · cases hu
      · rename_i cs hdecode
        split at hu
        · rename_i hpoints
          have hbytes := Utf8.encode_of_decode hdecode
          have hne : cs ≠ [] := by
            rintro rfl
            exact hnil (by rw [← hbytes]; rfl)
          rw [eq_loneMark hne hpoints] at hbytes
          exact absurd hbytes.symm hs
        · split at hu
          · cases hu
          · cases hu
            rfl
  · cases h

theorem mapM_toLine_bytes {texts : List Bytes} {lines : List UnicodeString}
    (h : texts.mapM toLine = .ok lines) (hmark : loneMark ∉ texts) :
    lines.map UnicodeString.toBytes = texts := by
  induction texts generalizing lines with
  | nil =>
    cases h
    rfl
  | cons s texts ih =>
    rw [List.mapM_cons] at h
    obtain ⟨u, hu, h⟩ := Outcome.bind_eq_ok.mp h
    obtain ⟨us, hus, h⟩ := Outcome.bind_eq_ok.mp h
    cases h
    rw [List.mem_cons, not_or] at hmark
    rw [List.map_cons, toLine_bytes hu (Ne.symm hmark.1), ih hus hmark.2]

theorem recognised {t : History} {draft : Prompt}
    (hmark : ∀ k e, Selected t draft.2 k e → loneMark ∉ splitOnChar newline e.entryText) :
    t.Recognised draft := by
  intro k e lines hsel hlines
  rw [promptToString, mapM_toLine_bytes hlines (hmark k e hsel), concatWith_splitOnChar]

end

/-! ## Examples -/

section

attribute [local instance] asciiUcd

/-- A history with these inputs to R, oldest first. -/
def recalling (texts : List Bytes) : History :=
  { init ⟨[], []⟩ with history := texts.map fun text => ⟨bytes "r", text⟩ }

end

end History
end Raoui
