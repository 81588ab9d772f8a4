import Mathlib.Order.Bounds.Basic
import Raoui.Editor.Recall
import Raoui.Lib.Observation
import Raoui.Lib.Transition

/-!
# Raoui.Editor.RecallMiss

A `go_back` that finds nothing. It returns `None`, but by then it has stored the draft, replaced the
needle and moved the index behind the oldest entry. What later calls can show of that is settled
here.

* `picks`: whether navigation with a needle stops at an entry.
* `goBack_spec`, `goForwards_spec`: a call stops at the nearest entry picked.
* `not_alike_of_lt`: two positions in one history are told apart by going forwards with an empty
  prompt, since from the older one there is more to show.
* `goBack_atomic_iff`: the calls after the miss answer as without it just when the index was behind
  the oldest entry already and the new needle picks what the old one did.
-/

namespace Raoui
namespace History

open Observation (Alike)
open UnicodeString (WellFormed byteOrderMark)

/-! ## What a needle picks -/

theorem lt_of_picks {t : History} {needle : Option (List UnicodeString)} {k : Nat}
    (h : t.picks needle k = true) : k < t.history.length := by
  unfold picks at h
  split at h
  · cases h
  · rename_i e he
    have hlt := (List.getElem?_eq_some_iff.mp he).1
    rwa [List.length_reverse] at hlt

/-- Without a needle every entry is picked that differs from the next newer one. -/
theorem picks_none_of_picks {t : History} {needle : Option (List UnicodeString)} {k : Nat}
    (h : t.picks needle k = true) : t.picks none k = true := by
  unfold picks at h ⊢
  split at h
  · cases h
  · exact Bool.and_eq_true_iff.mpr ⟨(Bool.and_eq_true_iff.mp h).1, rfl⟩

theorem containsSubstring_nil (s : Bytes) : containsSubstring [] s = true := by
  cases s <;> rfl

/-- The blank prompt as a needle picks what is picked without one. -/
theorem picks_blank (t : History) (k : Nat) :
    t.picks (some [UnicodeString.empty]) k = t.picks none k := by
  have hblank : promptToString [UnicodeString.empty] = [] := rfl
  simp only [picks, matchesPrompt, hblank, containsSubstring_nil]

/-! ## The needle of a call -/

/-- The text of the entry the index stands behind. -/
def shownText (t : History) : Option Bytes :=
  if t.currentIndex = 0 then none else (t.newest? (t.currentIndex - 1)).map Entry.entryText

/-- The needle `update_search_needle` leaves. -/
def needleWith (t : History) (lines : List UnicodeString) : Option (List UnicodeString) :=
  if t.shownText = some (promptToString lines) then t.searchNeedle else some lines

theorem promptMatchesEntry_eq (t : History) (lines : List UnicodeString) :
    promptMatchesEntry t lines t.currentIndex =
      .ok (decide (t.shownText = some (promptToString lines))) := by
  unfold promptMatchesEntry shownText
  by_cases h : t.currentIndex > 0 ∧ t.currentIndex - 1 < t.history.length
  · obtain ⟨e, he⟩ := newest?_of_lt h.2
    rw [if_pos h, nthNewest_of_newest? he, if_neg (by omega), he]
    simp [bind, Except.bind, pure, Except.pure, eq_comm]
  · rw [if_neg h]
    by_cases hzero : t.currentIndex = 0
    · rw [if_pos hzero]
      rfl
    · have hnone : t.newest? (t.currentIndex - 1) = none := by
        rw [newest?, List.getElem?_eq_none_iff, List.length_reverse]
        omega
      rw [if_neg hzero, hnone]
      rfl

theorem updateSearchNeedle_eq (t : History) (lines : List UnicodeString) :
    updateSearchNeedle t lines = .ok { t with searchNeedle := t.needleWith lines } := by
  unfold updateSearchNeedle needleWith
  rw [promptMatchesEntry_eq]
  by_cases h : t.shownText = some (promptToString lines)
  · rw [decide_eq_true h, if_pos h]
    rfl
  · rw [decide_eq_false h, if_neg h]
    rfl

section
variable [Ucd]

/-! ## One call -/

/-- The entries picked from index `i` on, the newest of them the least. -/
def older (t : History) (needle : Option (List UnicodeString)) (i : Nat) : Set Nat :=
  {k | i ≤ k ∧ t.picks needle k = true}

/-- The entries picked that are newer than the one the index `i` stands behind. -/
def newer (t : History) (needle : Option (List UnicodeString)) (i : Nat) : Set Nat :=
  {k | k + 1 < i ∧ t.picks needle k = true}

/-- The prompt that entry `k` is shown as. -/
def ShownAt (t : History) (k : Nat) (p : Prompt) : Prop := ∃ e, t.newest? k = some e ∧ Shows e p

theorem ShownAt.unique {t : History} {k : Nat} {p p' : Prompt} (h : t.ShownAt k p)
    (h' : t.ShownAt k p') : p = p' := by
  obtain ⟨e, he, hmode, hlines⟩ := h
  obtain ⟨e', he', hmode', hlines'⟩ := h'
  obtain rfl := Option.some.inj (he.symm.trans he')
  exact Prod.ext (hmode.symm.trans hmode') (Except.ok.inj (hlines.symm.trans hlines'))

/-- Every entry's lines can be read. -/
def Readable (t : History) : Prop := ∀ e ∈ t.history, ∃ lines, toUs e.entryText = .ok lines

theorem Readable.shown {t : History} (h : t.Readable) {k : Nat} {e : Entry}
    (he : t.newest? k = some e) : ∃ lines, toUs e.entryText = .ok lines :=
  h e (List.mem_reverse.mp (List.mem_of_getElem? he))

/-- `go_back` stops at the newest entry picked from the index on, or behind the oldest. -/
theorem goBackFrom_spec {fuel : Nat} {t : History} (hr : t.Readable)
    (hlen : t.currentIndex + fuel = t.history.length) :
    (∃ k p, IsLeast (t.older t.searchNeedle t.currentIndex) k ∧ t.ShownAt k p ∧
        goBackFrom fuel t = .ok (some p, { t with currentIndex := k + 1 })) ∨
      (t.older t.searchNeedle t.currentIndex = ∅ ∧
        goBackFrom fuel t = .ok (none, { t with currentIndex := t.history.length })) := by
  induction fuel generalizing t with
  | zero =>
    right
    constructor
    · refine Set.eq_empty_iff_forall_notMem.mpr fun k hk => ?_
      have := lt_of_picks hk.2
      have := hk.1
      omega
    · rw [← hlen]
      rfl
  | succ fuel ih =>
    obtain ⟨e, he⟩ := newest?_of_lt (t := t) (k := t.currentIndex) (by omega)
    rw [goBackFrom_succ fuel he]
    by_cases hpick : t.picks t.searchNeedle t.currentIndex = true
    · left
      obtain ⟨lines, hlines⟩ := hr.shown he
      refine ⟨t.currentIndex, (e.entryMode, lines), ⟨⟨Nat.le_refl _, hpick⟩, fun k hk => hk.1⟩,
        ⟨e, he, rfl, hlines⟩, ?_⟩
      rw [if_pos hpick, hlines]
      rfl
    · rw [if_neg hpick]
      -- the entry passed over is not among those picked
      have hset : t.older t.searchNeedle t.currentIndex =
          t.older t.searchNeedle (t.currentIndex + 1) := by
        ext k
        refine ⟨fun hk => ⟨Nat.lt_of_le_of_ne hk.1 ?_, hk.2⟩, fun hk => ⟨by have := hk.1; omega, hk.2⟩⟩
        rintro rfl
        exact hpick hk.2
      rw [hset]
      exact ih (t := { t with currentIndex := t.currentIndex + 1 }) hr (by dsimp only; omega)

/-- `go_forwards` stops at the oldest entry picked that is newer than the one shown, or at the
draft. -/
theorem goForwardsFrom_spec {c : Nat} {t : History} (hr : t.Readable) (hc : c < t.history.length) :
    (∃ k p, IsGreatest (t.newer t.searchNeedle (c + 1)) k ∧ t.ShownAt k p ∧
        goForwardsFrom (c + 1) t = .ok (some p, { t with currentIndex := k + 1 })) ∨
      (t.newer t.searchNeedle (c + 1) = ∅ ∧
        goForwardsFrom (c + 1) t = .ok (t.savedPrompt, { t with currentIndex := 0 })) := by
  induction c generalizing t with
  | zero =>
    right
    refine ⟨Set.eq_empty_iff_forall_notMem.mpr fun k hk => ?_, rfl⟩
    have := hk.1
    omega
  | succ c ih =>
    obtain ⟨e, he⟩ := newest?_of_lt (t := t) (k := c) (by omega)
    rw [goForwardsFrom_succ c he]
    by_cases hpick : t.picks t.searchNeedle c = true
    · left
      obtain ⟨lines, hlines⟩ := hr.shown he
      refine ⟨c, (e.entryMode, lines), ⟨⟨by omega, hpick⟩, fun k hk => ?_⟩, ⟨e, he, rfl, hlines⟩, ?_⟩
      · have := hk.1
        omega
      · rw [if_pos hpick, hlines]
        rfl
    · rw [if_neg hpick]
      have hset : t.newer t.searchNeedle (c + 1 + 1) = t.newer t.searchNeedle (c + 1) := by
        ext k
        refine ⟨fun hk => ⟨?_, hk.2⟩, fun hk => ⟨by have := hk.1; omega, hk.2⟩⟩
        have hne : k ≠ c := by
          rintro rfl
          exact hpick hk.2
        have := hk.1
        omega
      rw [hset]
      exact ih (t := { t with currentIndex := c + 1 }) hr (by dsimp only; omega)

/-- The draft is stored by the call that leaves it. -/
def savedBy (t : History) (p : Prompt) : Option Prompt :=
  if t.currentIndex = 0 then some p else t.savedPrompt

theorem goBack_eq (t : History) (p : Prompt) :
    t.goBack p = goBackFrom (t.history.length - t.currentIndex)
      { t with savedPrompt := t.savedBy p, searchNeedle := t.needleWith p.2 } := by
  unfold goBack savedBy
  by_cases h : t.currentIndex = 0
  · simp only [h, if_true, updateSearchNeedle_eq]
    simp [bind, Except.bind, needleWith, shownText, h]
  · simp only [h, if_false, updateSearchNeedle_eq]
    rfl

theorem goBack_spec {t : History} (hr : t.Readable) (hle : t.currentIndex ≤ t.history.length)
    (p : Prompt) :
    (∃ k q, IsLeast (t.older (t.needleWith p.2) t.currentIndex) k ∧ t.ShownAt k q ∧
        t.goBack p = .ok (some q, { t with
          currentIndex := k + 1, savedPrompt := t.savedBy p, searchNeedle := t.needleWith p.2 })) ∨
      (t.older (t.needleWith p.2) t.currentIndex = ∅ ∧
        t.goBack p = .ok (none, { t with
          currentIndex := t.history.length
          savedPrompt := t.savedBy p, searchNeedle := t.needleWith p.2 })) := by
  rw [goBack_eq]
  exact goBackFrom_spec
    (t := { t with savedPrompt := t.savedBy p, searchNeedle := t.needleWith p.2 }) hr
    (by dsimp only; omega)

theorem goForwards_spec {t : History} (hr : t.Readable) (hle : t.currentIndex ≤ t.history.length)
    (hpos : 0 < t.currentIndex) (p : Prompt) :
    (∃ k q, IsGreatest (t.newer (t.needleWith p.2) t.currentIndex) k ∧ t.ShownAt k q ∧
        t.goForwards p =
          .ok (some q, { t with currentIndex := k + 1, searchNeedle := t.needleWith p.2 })) ∨
      (t.newer (t.needleWith p.2) t.currentIndex = ∅ ∧
        t.goForwards p =
          .ok (t.savedPrompt, { t with currentIndex := 0, searchNeedle := t.needleWith p.2 })) := by
  obtain ⟨c, hc⟩ : ∃ c, t.currentIndex = c + 1 := Nat.exists_eq_add_one.mpr hpos
  have hspec := goForwardsFrom_spec (c := c) (t := { t with searchNeedle := t.needleWith p.2 }) hr
    (by dsimp only; omega)
  have heq : t.goForwards p = goForwardsFrom (c + 1) { t with searchNeedle := t.needleWith p.2 } := by
    unfold goForwards
    rw [updateSearchNeedle_eq, ← hc]
    rfl
  rw [heq, hc]
  exact hspec

/-- Before any entry is shown, there is nothing to go forwards to. -/
theorem goForwards_zero {t : History} (h : t.currentIndex = 0) (p : Prompt) :
    t.goForwards p = .ok (none, { t with searchNeedle := some p.2 }) := by
  unfold goForwards
  rw [updateSearchNeedle_eq, needleWith, shownText, if_pos h]
  dsimp only [bind, Except.bind]
  rw [h]
  rfl

/-! ## Later calls -/

/-- A prompt as it can be typed: its lines are texts. -/
abbrev TypedPrompt := { p : Prompt // ∀ line ∈ p.2, WellFormed line }

inductive Call where
  | back (p : TypedPrompt)
  | forwards (p : TypedPrompt)

def navigate (t : History) : Call → Res (Option Prompt × History)
  | .back p => t.goBack p.1
  | .forwards p => t.goForwards p.1

/-- Two needles pick the same entries. The oldest one counts only when another is picked: without
one there is no coming back to it with the needle kept. -/
structure SamePicks (t : History) (needle needle' : Option (List UnicodeString)) : Prop where
  others : ∀ k, k + 1 < t.history.length → t.picks needle k = t.picks needle' k
  oldest : (∃ k, k + 1 < t.history.length ∧ t.picks needle k = true) →
    ∀ k, k + 1 = t.history.length → t.picks needle k = t.picks needle' k

/-- The same position, with needles that make no difference there. -/
structure SameView (t t' : History) : Prop where
  history : t'.history = t.history
  index : t'.currentIndex = t.currentIndex
  le : t.currentIndex ≤ t.history.length
  saved : 0 < t.currentIndex → t'.savedPrompt = t.savedPrompt
  picks : 0 < t.currentIndex → SamePicks t t.searchNeedle t'.searchNeedle
  another : 0 < t.currentIndex → t.currentIndex < t.history.length →
    ∃ k, k + 1 < t.history.length ∧ t.picks t.searchNeedle k = true

omit [Ucd] in
theorem samePicks_refl (t : History) (needle : Option (List UnicodeString)) :
    SamePicks t needle needle := ⟨fun _ _ => rfl, fun _ _ _ => rfl⟩

omit [Ucd] in
theorem newest?_congr {t t' : History} (h : t'.history = t.history) (k : Nat) :
    t'.newest? k = t.newest? k := by
  rw [newest?, newest?, h]

omit [Ucd] in
theorem picks_congr {t t' : History} (h : t'.history = t.history)
    (needle : Option (List UnicodeString)) (k : Nat) : t'.picks needle k = t.picks needle k := by
  simp only [History.picks, newest?_congr h]

omit [Ucd] in
theorem SamePicks.congr {t t' : History} {needle needle' : Option (List UnicodeString)}
    (h : t'.history = t.history) (hsame : SamePicks t needle needle') :
    SamePicks t' needle needle' := by
  constructor
  · intro k hk
    rw [picks_congr h, picks_congr h]
    exact hsame.others k (h ▸ hk)
  · rintro ⟨j, hj, hpick⟩ k hk
    rw [picks_congr h] at hpick
    rw [picks_congr h, picks_congr h]
    exact hsame.oldest ⟨j, h ▸ hj, hpick⟩ k (h ▸ hk)

theorem ShownAt.congr {t t' : History} (h : t'.history = t.history) {k : Nat} {p : Prompt}
    (hshown : t'.ShownAt k p) : t.ShownAt k p := by
  obtain ⟨e, he, hp⟩ := hshown
  exact ⟨e, newest?_congr h k ▸ he, hp⟩

namespace SameView

variable {t t' : History}

omit [Ucd] in
theorem shownText_eq (h : SameView t t') : t'.shownText = t.shownText := by
  simp only [shownText, h.index, newest?_congr h.history]

omit [Ucd] in
/-- A call leaves needles that pick the same. -/
theorem needleWith (h : SameView t t') (lines : List UnicodeString) :
    SamePicks t (t.needleWith lines) (t'.needleWith lines) := by
  unfold History.needleWith
  rw [h.shownText_eq]
  by_cases hshown : t.shownText = some (promptToString lines)
  · rw [if_pos hshown, if_pos hshown]
    refine h.picks (Nat.pos_of_ne_zero fun hzero => ?_)
    rw [shownText, if_pos hzero] at hshown
    cases hshown
  · rw [if_neg hshown, if_neg hshown]
    exact samePicks_refl t _

omit [Ucd] in
theorem older_eq (h : SameView t t') (lines : List UnicodeString) :
    t'.older (t'.needleWith lines) t'.currentIndex =
      t.older (t.needleWith lines) t.currentIndex := by
  have hall : ∀ k, t.currentIndex ≤ k → k < t.history.length →
      t.picks (t.needleWith lines) k = t.picks (t'.needleWith lines) k := by
    intro k hk hlt
    unfold History.needleWith
    rw [h.shownText_eq]
    by_cases hshown : t.shownText = some (promptToString lines)
    · rw [if_pos hshown, if_pos hshown]
      have hpos : 0 < t.currentIndex := by
        refine Nat.pos_of_ne_zero fun hzero => ?_
        rw [shownText, if_pos hzero] at hshown
        cases hshown
      obtain hother | holdest := Nat.lt_or_ge (k + 1) t.history.length
      · exact (h.picks hpos).others k hother
      · exact (h.picks hpos).oldest (h.another hpos (by omega)) k (by omega)
    · rw [if_neg hshown, if_neg hshown]
  ext k
  simp only [older, Set.mem_ofPred_eq, h.index, picks_congr h.history]
  refine and_congr_right fun hk => ⟨fun hp => ?_, fun hp => ?_⟩
  · rw [hall k hk (lt_of_picks hp)]
    exact hp
  · rw [← hall k hk (lt_of_picks hp)]
    exact hp

omit [Ucd] in
theorem newer_eq (h : SameView t t') (lines : List UnicodeString) :
    t'.newer (t'.needleWith lines) t'.currentIndex =
      t.newer (t.needleWith lines) t.currentIndex := by
  ext k
  simp only [newer, Set.mem_ofPred_eq, h.index, picks_congr h.history]
  refine and_congr_right fun hk => ?_
  rw [(h.needleWith lines).others k (Nat.lt_of_lt_of_le hk h.le)]

theorem goBack (h : SameView t t') (hr : t.Readable) (p : Prompt) :
    ∃ shown s s', t.goBack p = .ok (shown, s) ∧ t'.goBack p = .ok (shown, s') ∧ SameView s s' ∧
      s.history = t.history := by
  have hr' : t'.Readable := by
    unfold Readable
    rw [h.history]
    exact hr
  have hsaved : t'.savedBy p = t.savedBy p := by
    unfold savedBy
    rw [h.index]
    by_cases hzero : t.currentIndex = 0
    · rw [if_pos hzero, if_pos hzero]
    · rw [if_neg hzero, if_neg hzero, h.saved (Nat.pos_of_ne_zero hzero)]
  have hset := h.older_eq p.2
  have hle' : t'.currentIndex ≤ t'.history.length := by
    rw [h.index, h.history]
    exact h.le
  obtain ⟨k, q, hk, hq, hgo⟩ | ⟨hnone, hgo⟩ := goBack_spec hr h.le p <;>
    obtain ⟨k', q', hk', hq', hgo'⟩ | ⟨hnone', hgo'⟩ := goBack_spec hr' hle' p
  · rw [hset] at hk'
    obtain rfl := hk.unique hk'
    obtain rfl := hq.unique (hq'.congr h.history)
    exact ⟨_, _, _, hgo, hgo', ⟨h.history, rfl, lt_of_picks hk.1.2, fun _ => hsaved,
      fun _ => SamePicks.congr (t := t) rfl (h.needleWith p.2), fun _ hlt => ⟨k, hlt, hk.1.2⟩⟩, rfl⟩
  · rw [hset] at hnone'
    exact absurd hk.1 (Set.eq_empty_iff_forall_notMem.mp hnone' k)
  · rw [hset, hnone] at hk'
    exact absurd hk'.1 (Set.notMem_empty k')
  · refine ⟨_, _, _, hgo, hgo', ⟨h.history, ?_, Nat.le_refl _, fun _ => hsaved,
      fun _ => SamePicks.congr (t := t) rfl (h.needleWith p.2), fun _ hlt => absurd hlt (Nat.lt_irrefl _)⟩, rfl⟩
    dsimp only
    rw [h.history]

theorem goForwards (h : SameView t t') (hr : t.Readable) (p : Prompt) :
    ∃ shown s s', t.goForwards p = .ok (shown, s) ∧ t'.goForwards p = .ok (shown, s') ∧
      SameView s s' ∧ s.history = t.history := by
  obtain hzero | hpos := Nat.eq_zero_or_pos t.currentIndex
  · refine ⟨_, _, _, goForwards_zero hzero p, goForwards_zero (h.index.trans hzero) p,
      ⟨h.history, h.index, h.le, fun hpos => ?_, fun _ => samePicks_refl _ _,
        fun hpos => ?_⟩, rfl⟩
    · exact absurd hzero (Nat.pos_iff_ne_zero.mp hpos)
    · exact absurd hzero (Nat.pos_iff_ne_zero.mp hpos)
  · have hr' : t'.Readable := by
      unfold Readable
      rw [h.history]
      exact hr
    have hset := h.newer_eq p.2
    have hle' : t'.currentIndex ≤ t'.history.length := by
      rw [h.index, h.history]
      exact h.le
    have hpos' : 0 < t'.currentIndex := h.index ▸ hpos
    obtain ⟨k, q, hk, hq, hgo⟩ | ⟨hnone, hgo⟩ := goForwards_spec hr h.le hpos p <;>
      obtain ⟨k', q', hk', hq', hgo'⟩ | ⟨hnone', hgo'⟩ := goForwards_spec hr' hle' hpos' p
    · rw [hset] at hk'
      obtain rfl := hk.unique hk'
      obtain rfl := hq.unique (hq'.congr h.history)
      exact ⟨_, _, _, hgo, hgo', ⟨h.history, rfl, lt_of_picks hk.1.2, fun _ => h.saved hpos,
        fun _ => SamePicks.congr (t := t) rfl (h.needleWith p.2), fun _ hlt => ⟨k, hlt, hk.1.2⟩⟩, rfl⟩
    · rw [hset] at hnone'
      exact absurd hk.1 (Set.eq_empty_iff_forall_notMem.mp hnone' k)
    · rw [hset, hnone] at hk'
      exact absurd hk'.1 (Set.notMem_empty k')
    · rw [h.saved hpos] at hgo'
      exact ⟨_, _, _, hgo, hgo', ⟨h.history, rfl, Nat.zero_le _, fun hpos => absurd hpos (by simp),
        fun _ => SamePicks.congr (t := t) rfl (h.needleWith p.2), fun hpos => absurd hpos (by simp)⟩, rfl⟩

/-- From the same view every call answers the same. -/
theorem alike (h : SameView t t') (hr : t.Readable) : Alike navigate t t' := by
  refine Observation.alike_of_simulation
    (R := fun t t' => SameView t t' ∧ t.Readable) ?_ ⟨h, hr⟩
  rintro t t' (p | p) ⟨h, hr⟩
  · obtain ⟨shown, s, s', hgo, hgo', hs, hhist⟩ := h.goBack hr p.1
    exact ⟨shown, s, s', hgo, hgo', hs, by rw [Readable, hhist]; exact hr⟩
  · obtain ⟨shown, s, s', hgo, hgo', hs, hhist⟩ := h.goForwards hr p.1
    exact ⟨shown, s, s', hgo, hgo', hs, by rw [Readable, hhist]; exact hr⟩

end SameView

/-! ## Telling positions apart -/

theorem alike_back {s s' t t' : History} {p : TypedPrompt} {shown shown' : Option Prompt}
    (h : Alike navigate s t) (hs : s.goBack p.1 = .ok (shown, s'))
    (ht : t.goBack p.1 = .ok (shown', t')) : shown = shown' ∧ Alike navigate s' t' :=
  Observation.Alike.step (i := Call.back p) h hs ht

theorem alike_forwards {s s' t t' : History} {p : TypedPrompt} {shown shown' : Option Prompt}
    (h : Alike navigate s t) (hs : s.goForwards p.1 = .ok (shown, s'))
    (ht : t.goForwards p.1 = .ok (shown', t')) : shown = shown' ∧ Alike navigate s' t' :=
  Observation.Alike.step (i := Call.forwards p) h hs ht

/-- No entry is empty: `add_to_history` records none that is blank. -/
def Nonempty (t : History) : Prop := ∀ e ∈ t.history, e.entryText ≠ []

/-- The prompt with one empty line. -/
def blank : TypedPrompt :=
  ⟨(bytes "r", [UnicodeString.empty]), fun line hline => by
    rw [List.mem_singleton.mp hline]
    exact UnicodeString.wellFormed_empty⟩

omit [Ucd] in
theorem newer_blank {t : History} (hne : t.Nonempty) (i : Nat) :
    t.newer (t.needleWith blank.1.2) i = t.newer none i := by
  have hneedle : t.needleWith blank.1.2 = some [UnicodeString.empty] := by
    refine if_neg fun hshown => ?_
    unfold shownText at hshown
    split at hshown
    · cases hshown
    · obtain ⟨e, he, htext⟩ := Option.map_eq_some_iff.mp hshown
      exact hne e (List.mem_reverse.mp (List.mem_of_getElem? he)) htext
  ext k
  simp only [newer, Set.mem_ofPred_eq, hneedle, picks_blank]

/-- Going forwards with blank prompts shows more from an older position. -/
theorem not_alike_of_lt {i : Nat} {s t : History} (hr : s.Readable) (hne : s.Nonempty)
    (hhist : t.history = s.history) (hle : s.currentIndex ≤ s.history.length)
    (hi : t.currentIndex = i) (hlt : i < s.currentIndex)
    (hzero : i = 0 → s.savedPrompt ≠ none)
    (hpos : 0 < i → s.picks none (i - 1) = true ∧ t.savedPrompt = s.savedPrompt) :
    ¬ Alike navigate s t := by
  induction i using Nat.strongRecOn generalizing s t with
  | _ i ih =>
    intro halike
    obtain hs := goForwards_spec hr hle (Nat.zero_lt_of_lt hlt) blank.1
    rw [newer_blank hne] at hs
    obtain rfl | hipos := Nat.eq_zero_or_pos i
    · have ht := goForwards_zero hi blank.1
      obtain ⟨k, q, -, -, hgo⟩ | ⟨-, hgo⟩ := hs
      · have hans := (alike_forwards halike hgo ht).1
        cases hans
      · exact hzero rfl (alike_forwards halike hgo ht).1
    · obtain ⟨hpick, hsaved⟩ := hpos hipos
      have hr' : t.Readable := by
        unfold Readable
        rw [hhist]
        exact hr
      have hne' : t.Nonempty := by
        unfold Nonempty
        rw [hhist]
        exact hne
      have hmem : i - 1 ∈ s.newer none s.currentIndex := ⟨by omega, hpick⟩
      have ht := goForwards_spec hr' (by rw [hi, hhist]; omega) (hi ▸ hipos) blank.1
      rw [newer_blank hne'] at ht
      obtain ⟨k, q, hk, -, hgo⟩ | ⟨hnone, -⟩ := hs
      · have hik : i - 1 ≤ k := hk.2 hmem
        have hkle : k + 1 ≤ s.history.length := lt_of_picks hk.1.2
        obtain ⟨k', q', hk', -, hgo'⟩ | ⟨-, hgo'⟩ := ht
        · have hk'lt : k' + 1 < i := hi ▸ hk'.1.1
          have hnext := (alike_forwards halike hgo hgo').2
          refine ih (k' + 1) hk'lt (s := { s with
            currentIndex := k + 1, searchNeedle := s.needleWith blank.1.2 }) (t := { t with
            currentIndex := k' + 1, searchNeedle := t.needleWith blank.1.2 }) hr hne hhist hkle rfl
            (by dsimp only; omega) (fun h => absurd h (Nat.succ_ne_zero k')) (fun _ => ⟨?_, hsaved⟩)
            hnext
          have hp := hk'.1.2
          rw [picks_congr hhist] at hp
          exact hp
        · obtain ⟨hans, hnext⟩ := alike_forwards halike hgo hgo'
          refine ih 0 hipos (s := { s with
            currentIndex := k + 1, searchNeedle := s.needleWith blank.1.2 }) (t := { t with
            currentIndex := 0, searchNeedle := t.needleWith blank.1.2 }) hr hne hhist hkle rfl
            (Nat.succ_pos k) (fun _ => ?_) (fun h => absurd h (Nat.lt_irrefl 0)) hnext
          dsimp only
          rw [← hsaved, ← hans]
          nofun
      · exact absurd hmem (Set.eq_empty_iff_forall_notMem.mp hnone _)

/-! ## The prompt that keeps the needle -/

/-- A readable line is the text of some line; the one that reads as another is kept as it is. -/
theorem exists_line {text : Bytes} {u : UnicodeString} (h : toLine text = .ok u) :
    ∃ line : UnicodeString, line.toBytes = text ∧ WellFormed line := by
  by_cases hmark : text = loneMark
  · refine ⟨⟨loneMark, [], []⟩, hmark.symm, [byteOrderMark], [], by simp, ?_⟩
    rfl
  · refine ⟨u, toLine_bytes h hmark, ?_⟩
    unfold toLine at h
    split at h
    · rename_i u' hu
      cases h
      exact UnicodeString.wellFormed_of_ofString hu
    · cases h

theorem exists_lines {texts : List Bytes} {us : List UnicodeString}
    (h : texts.mapM toLine = .ok us) :
    ∃ lines : List UnicodeString, lines.map UnicodeString.toBytes = texts ∧
      ∀ line ∈ lines, WellFormed line := by
  induction texts generalizing us with
  | nil => exact ⟨[], rfl, nofun⟩
  | cons text texts ih =>
    rw [List.mapM_cons] at h
    obtain ⟨u, hu, h⟩ := Outcome.bind_eq_ok.mp h
    obtain ⟨us, hus, -⟩ := Outcome.bind_eq_ok.mp h
    obtain ⟨line, hline, hwf⟩ := exists_line hu
    obtain ⟨lines, hlines, hall⟩ := ih hus
    refine ⟨line :: lines, by rw [List.map_cons, hline, hlines], ?_⟩
    intro l hl
    obtain rfl | hl := List.mem_cons.mp hl
    · exact hwf
    · exact hall l hl

/-- Some prompt is the text of the entry shown, and with it the needle is kept. -/
theorem exists_keeping {t : History} (hr : t.Readable) (hpos : 0 < t.currentIndex)
    (hle : t.currentIndex ≤ t.history.length) :
    ∃ p : TypedPrompt, some (promptToString p.1.2) = t.shownText := by
  obtain ⟨e, he⟩ := newest?_of_lt (t := t) (k := t.currentIndex - 1) (by omega)
  obtain ⟨us, hus⟩ := hr.shown he
  obtain ⟨lines, hlines, hwf⟩ := exists_lines hus
  refine ⟨⟨(bytes "r", lines), hwf⟩, ?_⟩
  rw [shownText, if_neg (by omega), he, Option.map_some, promptToString, hlines,
    concatWith_splitOnChar]

omit [Ucd] in
theorem needleWith_keeping {t : History} {p : TypedPrompt}
    (h : some (promptToString p.1.2) = t.shownText) : t.needleWith p.1.2 = t.searchNeedle :=
  if_pos h.symm

/-! ## Two needles at one position -/

/-- Two records that differ in the needle only, seen from index `i`. -/
def withNeedle (t : History) (i : Nat) (needle : Option (List UnicodeString)) : History :=
  { t with currentIndex := i, searchNeedle := needle }

section
variable {t : History} {needle needle' : Option (List UnicodeString)}

omit [Ucd] in
theorem needleWith_withNeedle {i : Nat} {p : TypedPrompt}
    (hp : some (promptToString p.1.2) = (t.withNeedle i needle).shownText) :
    (t.withNeedle i needle).needleWith p.1.2 = needle := needleWith_keeping hp

/-- Going forwards with the entry's own text. -/
theorem forwards_keeping (hr : t.Readable) {i : Nat} (hpos : 0 < i) (hi : i ≤ t.history.length)
    {p : TypedPrompt} (hp : some (promptToString p.1.2) = (t.withNeedle i needle).shownText) :
    (∃ k q, IsGreatest (t.newer needle i) k ∧ t.ShownAt k q ∧
        (t.withNeedle i needle).goForwards p.1 = .ok (some q, t.withNeedle (k + 1) needle)) ∨
      (t.newer needle i = ∅ ∧
        (t.withNeedle i needle).goForwards p.1 = .ok (t.savedPrompt, t.withNeedle 0 needle)) := by
  have hspec := goForwards_spec (t := t.withNeedle i needle) hr hi hpos p.1
  rw [needleWith_withNeedle hp] at hspec
  exact hspec

/-- Where both needles lead on the way forwards. -/
theorem forwards_together (hr : t.Readable) (hne : t.Nonempty) {i : Nat} (hpos : 0 < i)
    (hi : i ≤ t.history.length)
    (h : Alike navigate (t.withNeedle i needle) (t.withNeedle i needle')) :
    (t.newer needle i = ∅ ∧ t.newer needle' i = ∅) ∨
      ∃ k, IsGreatest (t.newer needle i) k ∧ IsGreatest (t.newer needle' i) k ∧
        Alike navigate (t.withNeedle (k + 1) needle) (t.withNeedle (k + 1) needle') := by
  obtain ⟨p, hp⟩ := exists_keeping (t := t.withNeedle i needle) hr hpos hi
  have hp' : some (promptToString p.1.2) = (t.withNeedle i needle').shownText := hp
  -- stopping at different places, the two states could be told apart
  have apart {n n' : Option (List UnicodeString)} {k j : Nat} (hkj : j < k + 1)
      (hk : t.picks n k = true) (hzero : j = 0 → t.savedPrompt ≠ none)
      (hj : 0 < j → t.picks none (j - 1) = true) :
      ¬ Alike navigate (t.withNeedle (k + 1) n) (t.withNeedle j n') := by
    exact not_alike_of_lt (s := t.withNeedle (k + 1) n) (t := t.withNeedle j n') hr hne rfl
      (lt_of_picks hk) rfl hkj hzero fun hpos => ⟨hj hpos, rfl⟩
  obtain ⟨k, q, hk, -, hgo⟩ | ⟨hnone, hgo⟩ := forwards_keeping hr hpos hi hp <;>
    obtain ⟨k', q', hk', -, hgo'⟩ | ⟨hnone', hgo'⟩ := forwards_keeping hr hpos hi hp' <;>
    obtain ⟨hans, hnext⟩ := alike_forwards h hgo hgo'
  · obtain hlt | rfl | hlt := Nat.lt_trichotomy k k'
    · exact absurd hnext.symm (apart (Nat.succ_lt_succ hlt) hk'.1.2
        (fun h => absurd h (Nat.succ_ne_zero k)) fun _ => picks_none_of_picks hk.1.2)
    · exact .inr ⟨k, hk, hk', hnext⟩
    · exact absurd hnext (apart (Nat.succ_lt_succ hlt) hk.1.2
        (fun h => absurd h (Nat.succ_ne_zero k')) fun _ => picks_none_of_picks hk'.1.2)
  · refine absurd hnext (apart (Nat.succ_pos k) hk.1.2 (fun _ => ?_)
      fun h => absurd h (Nat.lt_irrefl 0))
    rw [← hans]
    nofun
  · refine absurd hnext.symm (apart (Nat.succ_pos k') hk'.1.2 (fun _ => ?_)
      fun h => absurd h (Nat.lt_irrefl 0))
    rw [hans]
    nofun
  · exact .inl ⟨hnone, hnone'⟩

/-- Needles that cannot be told apart pick the same newer entries. -/
theorem newer_eq_of_alike (hr : t.Readable) (hne : t.Nonempty) {i : Nat} (hpos : 0 < i)
    (hi : i ≤ t.history.length)
    (h : Alike navigate (t.withNeedle i needle) (t.withNeedle i needle')) :
    t.newer needle i = t.newer needle' i := by
  induction i using Nat.strongRecOn with
  | _ i ih =>
    obtain ⟨hnone, hnone'⟩ | ⟨k, hk, hk', hnext⟩ := forwards_together hr hne hpos hi h
    · rw [hnone, hnone']
    · have hlt : k + 1 < i := hk.1.1
      have hrest := ih (k + 1) hlt (Nat.succ_pos k) (by omega) hnext
      ext j
      obtain hj | rfl | hj := Nat.lt_trichotomy j k
      · have hiff := Set.ext_iff.mp hrest j
        simp only [newer, Set.mem_ofPred_eq, show j + 1 < k + 1 by omega, true_and] at hiff
        simp only [newer, Set.mem_ofPred_eq, show j + 1 < i by omega, true_and, hiff]
      · exact iff_of_true hk.1 hk'.1
      · exact iff_of_false (fun hmem => absurd (hk.2 hmem) (by omega))
          (fun hmem => absurd (hk'.2 hmem) (by omega))

/-- Nor, when another entry is picked, do they differ on the oldest. -/
theorem oldest_eq_of_alike (hr : t.Readable) (hne : t.Nonempty)
    (h : Alike navigate (t.withNeedle t.history.length needle)
      (t.withNeedle t.history.length needle'))
    (hsome : ∃ k, k + 1 < t.history.length ∧ t.picks needle k = true) {k : Nat}
    (hlast : k + 1 = t.history.length) : t.picks needle k = t.picks needle' k := by
  obtain ⟨j, hj, hpick⟩ := hsome
  obtain ⟨hnone, -⟩ | ⟨c, hc, hc', hnext⟩ :=
    forwards_together hr hne (by omega) (Nat.le_refl _) h
  · exact absurd (show j ∈ t.newer needle t.history.length from ⟨hj, hpick⟩)
      (Set.eq_empty_iff_forall_notMem.mp hnone j)
  have hclt : c + 1 < t.history.length := hc.1.1
  -- from the oldest of the other entries, one call back asks for the oldest of all
  have honly {n : Option (List UnicodeString)} (hc : IsGreatest (t.newer n t.history.length) c)
      {x : Nat} (hx : x ∈ t.older n (c + 1)) : x = k := by
    have hxlt := lt_of_picks hx.2
    by_contra hxk
    have hle : x ≤ c := hc.2 ⟨by omega, hx.2⟩
    have := hx.1
    omega
  obtain ⟨p, hp⟩ := exists_keeping (t := t.withNeedle (c + 1) needle) hr (Nat.succ_pos c)
    (Nat.le_of_lt hclt)
  have hp' : some (promptToString p.1.2) = (t.withNeedle (c + 1) needle').shownText := hp
  have hback := goBack_spec (t := t.withNeedle (c + 1) needle) hr (Nat.le_of_lt hclt) p.1
  have hback' := goBack_spec (t := t.withNeedle (c + 1) needle') hr (Nat.le_of_lt hclt) p.1
  rw [needleWith_withNeedle hp] at hback
  rw [needleWith_withNeedle hp'] at hback'
  obtain ⟨x, q, hx, -, hgo⟩ | ⟨hnone, hgo⟩ := hback <;>
    obtain ⟨x', q', hx', -, hgo'⟩ | ⟨hnone', hgo'⟩ := hback' <;>
    have hans := (alike_back hnext hgo hgo').1
  · obtain rfl := honly hc hx.1
    obtain rfl := honly hc' hx'.1
    exact hx.1.2.trans hx'.1.2.symm
  · cases hans
  · cases hans
  · refine Bool.eq_iff_iff.mpr (iff_of_false (fun hpick => ?_) fun hpick => ?_)
    · exact absurd (show k ∈ t.older needle (c + 1) from ⟨by omega, hpick⟩)
        (Set.eq_empty_iff_forall_notMem.mp hnone k)
    · exact absurd (show k ∈ t.older needle' (c + 1) from ⟨by omega, hpick⟩)
        (Set.eq_empty_iff_forall_notMem.mp hnone' k)

theorem samePicks_of_alike (hr : t.Readable) (hne : t.Nonempty)
    (h : Alike navigate (t.withNeedle t.history.length needle)
      (t.withNeedle t.history.length needle')) : SamePicks t needle needle' := by
  refine ⟨fun k hk => ?_, fun hsome k hk => oldest_eq_of_alike hr hne h hsome hk⟩
  have hiff := Set.ext_iff.mp (newer_eq_of_alike hr hne (by omega) (Nat.le_refl _) h) k
  simp only [newer, Set.mem_ofPred_eq, hk, true_and] at hiff
  exact Bool.eq_iff_iff.mpr hiff

end

/-! ## The call that finds nothing -/

/-- What holds of the record wherever navigation has gone. -/
structure Navigated (t : History) : Prop where
  readable : t.Readable
  nonempty : t.Nonempty
  index_le : t.currentIndex ≤ t.history.length
  /-- Unless it is behind the oldest, the index stands behind an entry that is no repetition. -/
  shown : 0 < t.currentIndex → t.currentIndex < t.history.length →
    t.picks none (t.currentIndex - 1) = true

/-- A call of either kind keeps it. -/
theorem Navigated.navigate {t t' : History} {call : Call} {shown : Option Prompt}
    (ht : t.Navigated) (h : t.navigate call = .ok (shown, t')) : t'.Navigated := by
  cases call with
  | back p =>
    obtain ⟨k, q, hk, -, hgo⟩ | ⟨-, hgo⟩ := goBack_spec ht.readable ht.index_le p.1
    · cases (show t.goBack p.1 = _ from h).symm.trans hgo
      exact ⟨ht.readable, ht.nonempty, lt_of_picks hk.1.2, fun _ _ => picks_none_of_picks hk.1.2⟩
    · cases (show t.goBack p.1 = _ from h).symm.trans hgo
      exact ⟨ht.readable, ht.nonempty, Nat.le_refl _, fun _ hlt => absurd hlt (Nat.lt_irrefl _)⟩
  | forwards p =>
    obtain hzero | hpos := Nat.eq_zero_or_pos t.currentIndex
    · cases (show t.goForwards p.1 = _ from h).symm.trans (goForwards_zero hzero p.1)
      exact ⟨ht.readable, ht.nonempty, ht.index_le,
        fun hpos => absurd hzero (Nat.pos_iff_ne_zero.mp hpos)⟩
    · obtain ⟨k, q, hk, -, hgo⟩ | ⟨-, hgo⟩ := goForwards_spec ht.readable ht.index_le hpos p.1
      · cases (show t.goForwards p.1 = _ from h).symm.trans hgo
        exact ⟨ht.readable, ht.nonempty, lt_of_picks hk.1.2, fun _ _ => picks_none_of_picks hk.1.2⟩
      · cases (show t.goForwards p.1 = _ from h).symm.trans hgo
        exact ⟨ht.readable, ht.nonempty, Nat.zero_le _, fun hpos => absurd hpos (Nat.lt_irrefl 0)⟩

/-- So it holds after every run of calls that starts from a draft. -/
theorem Navigated.of_run {t t' : History} {calls : List Call} (hr : t.Readable) (hne : t.Nonempty)
    (hzero : t.currentIndex = 0)
    (h : Transition.Run (fun s call s' => ∃ shown, s.navigate call = .ok (shown, s')) t calls t') :
    t'.Navigated := by
  refine h.invariant (fun ht hcall => ?_) (⟨hr, hne, by omega, fun hpos => by omega⟩ : t.Navigated)
  obtain ⟨shown, hcall⟩ := hcall
  exact ht.navigate hcall

omit [Ucd] in
theorem savedBy_of_ne_zero {t : History} {p : Prompt} (h : t.currentIndex ≠ 0) :
    t.savedBy p = t.savedPrompt := if_neg h

/-- A `go_back` without a result is unseen by all later calls just when the index stood behind the
oldest entry and the needle it leaves picks what the one before did. -/
theorem goBack_atomic_iff {t t' : History} {p : Prompt} (ht : t.Navigated)
    (h : t.goBack p = .ok (none, t')) :
    Alike navigate t t' ↔ t.currentIndex = t.history.length ∧
      SamePicks t t.searchNeedle (t.needleWith p.2) := by
  obtain ⟨k, q, -, -, hgo⟩ | ⟨-, hgo⟩ := goBack_spec ht.readable ht.index_le p
  · rw [h] at hgo
    cases hgo
  obtain rfl := (Prod.ext_iff.mp (Except.ok.inj (h.symm.trans hgo))).2
  constructor
  · intro halike
    obtain hlt | heq := Nat.lt_or_eq_of_le ht.index_le
    · refine absurd halike.symm (not_alike_of_lt (i := t.currentIndex) ht.readable ht.nonempty rfl
        (Nat.le_refl _) rfl hlt (fun hzero => ?_) fun hpos => ⟨ht.shown hpos hlt, ?_⟩)
      · dsimp only
        rw [savedBy, if_pos hzero]
        nofun
      · exact (savedBy_of_ne_zero (Nat.pos_iff_ne_zero.mp hpos)).symm
    · refine ⟨heq, ?_⟩
      obtain hzero | hpos := Nat.eq_zero_or_pos t.history.length
      · exact ⟨fun k hk => absurd hk (by omega), fun ⟨k, hk, _⟩ => absurd hk (by omega)⟩
      · refine samePicks_of_alike ht.readable ht.nonempty ?_
        have hsaved : t.savedBy p = t.savedPrompt := savedBy_of_ne_zero (by omega)
        rw [hsaved] at halike
        have hself : t.withNeedle t.history.length t.searchNeedle = t := by
          rw [withNeedle, ← heq]
        rw [hself]
        exact halike
  · rintro ⟨heq, hsame⟩
    refine SameView.alike ⟨rfl, heq.symm, ht.index_le, fun hpos => ?_, fun _ => hsame,
      fun _ hlt => absurd hlt (by omega)⟩ ht.readable
    exact savedBy_of_ne_zero (Nat.pos_iff_ne_zero.mp hpos)

end

/-! ## Examples -/

section

attribute [local instance] asciiUcd

/-- The only entry `a` is shown, and something else has been typed over it. -/
theorem goBack_atomic_oldest :
    ∃ t', ((recalling [bytes "a"]).navigating (bytes "r", [UnicodeString.empty]) 1).goBack
        (bytes "r", [⟨bytes "zz", [0, 1], [1, 1]⟩]) = .ok (none, t') ∧
      Alike navigate ((recalling [bytes "a"]).navigating (bytes "r", [UnicodeString.empty]) 1) t' := by
  obtain ⟨t', h⟩ : ∃ t', ((recalling [bytes "a"]).navigating (bytes "r", [UnicodeString.empty])
      1).goBack (bytes "r", [⟨bytes "zz", [0, 1], [1, 1]⟩]) = .ok (none, t') := ⟨_, rfl⟩
  refine ⟨t', h, (goBack_atomic_iff ⟨?_, ?_, Nat.le_refl 1, ?_⟩ h).mpr ⟨rfl, ?_, ?_⟩⟩
  · intro e he
    exact List.mem_singleton.mp he ▸ ⟨_, rfl⟩
  · intro e he
    exact List.mem_singleton.mp he ▸ (by decide)
  · exact fun _ hlt => absurd hlt (Nat.lt_irrefl 1)
  · exact fun k hk => absurd hk (by change ¬ k + 1 < 1; omega)
  · rintro ⟨k, hk, -⟩
    exact absurd hk (by change ¬ k + 1 < 1; omega)

/-- Up with `zz` finds nothing, one more letter is typed, and Down puts `zz` back over it. -/
theorem goBack_stale_draft : ¬ ∀ (t t' : History) (p : Prompt), t.Navigated →
    t.goBack p = .ok (none, t') → Alike navigate t t' := by
  intro h
  obtain ⟨t', hback, hstale⟩ : ∃ t',
      (recalling [bytes "a"]).goBack (bytes "r", [⟨bytes "zz", [0, 1], [1, 1]⟩]) =
        .ok (none, t') ∧
      t'.goForwards (bytes "r", [⟨bytes "zzy", [0, 1, 2], [1, 1, 1]⟩]) =
        .ok (some (bytes "r", [⟨bytes "zz", [0, 1], [1, 1]⟩]), { t' with
          currentIndex := 0, searchNeedle := some [⟨bytes "zzy", [0, 1, 2], [1, 1, 1]⟩] }) :=
    ⟨_, rfl, rfl⟩
  have hwf : WellFormed ⟨bytes "zzy", [0, 1, 2], [1, 1, 1]⟩ :=
    UnicodeString.wellFormed_of_ofString (s := bytes "zzy") rfl
  have halike := h _ t' _ ⟨?_, ?_, by decide, fun hpos => absurd hpos (by decide)⟩ hback
  · have hans := (alike_forwards (p := ⟨(bytes "r", [⟨bytes "zzy", [0, 1, 2], [1, 1, 1]⟩]),
      fun line hline => List.mem_singleton.mp hline ▸ hwf⟩) halike (goForwards_zero rfl _) hstale).1
    cases hans
  · intro e he
    exact List.mem_singleton.mp he ▸ ⟨_, rfl⟩
  · intro e he
    exact List.mem_singleton.mp he ▸ (by decide)

end

end History
end Raoui
