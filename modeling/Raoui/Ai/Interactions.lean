import Mathlib.Data.List.Palindrome
import Mathlib.Data.List.Sort
import Raoui.Ai.McpServer
import Raoui.Editor.HistoryRows
import Raoui.Lib.Like
import Raoui.Lib.Utf8

/-!
# Raoui.Ai.Interactions

The queries of `lib/history.ml` that the tools of the MCP server read the history with, over the
rows of the store, and what `get_history` makes of them.

* `likePattern_iff`: the pattern made of a keyword looks for the keyword itself.
* `Holds.recentInteractions`: the query gives the newest interactions of the session, oldest first.
* `getHistory_chronological_iff`: the tool turns them round once more.
-/

namespace Raoui
namespace History

open Mcp (Interaction Calls formatInteraction formatInteractions getHistory)

/-! ## Keywords -/

/-- `LIKE ? ESCAPE '\'` over bytes, upper and lower case letters of ASCII the same. -/
def likeBytes : Like.Wildcards UInt8 where
  any := 37
  one := 95
  escape := 92
  same c d := lowercaseAscii [c] = lowercaseAscii [d]
  any_ne_escape := by decide

def likeEscape (s : Bytes) : Bytes :=
  s.flatMap fun c => if c = 92 ∨ c = 37 ∨ c = 95 then [92, c] else [c]

/-- The pattern that `search_interactions` binds. -/
def likePattern (keyword : Bytes) : Bytes := bytes "%" ++ likeEscape keyword ++ bytes "%"

/-- The same over characters. -/
def likeChars : Like.Wildcards Char where
  any := '%'
  one := '_'
  escape := '\\'
  same c d := c.toLower = d.toLower
  any_ne_escape := by decide

theorem likeEscape_encode (cs : List Char) :
    likeEscape (Utf8.encode cs) = Utf8.encode (Like.escaped likeChars cs) := by
  have hval : ∀ (c : Char) (n : Nat) (h : n < 128), c.toNat < 128 → UInt8.ofNat c.toNat = UInt8.ofNat n →
      c.toNat = n := by
    intro c n hn hc heq
    have := congrArg UInt8.toNat heq
    rwa [UInt8.toNat_ofNat_of_lt' (Nat.lt_trans hc (by decide)),
      UInt8.toNat_ofNat_of_lt' (Nat.lt_trans hn (by decide))] at this
  refine Utf8.encode_flatMap ?_ ?_ ?_ cs
  · intro c hc
    have hiff : (UInt8.ofNat c.toNat = 92 ∨ UInt8.ofNat c.toNat = 37 ∨ UInt8.ofNat c.toNat = 95) ↔
        (c = '\\' ∨ c = '%' ∨ c = '_') := by
      constructor
      · rintro (h | h | h)
        · exact .inl (Char.toNat_inj.mp (hval c 92 (by decide) hc h))
        · exact .inr (.inl (Char.toNat_inj.mp (hval c 37 (by decide) hc h)))
        · exact .inr (.inr (Char.toNat_inj.mp (hval c 95 (by decide) hc h)))
      · rintro (rfl | rfl | rfl)
        · exact .inl rfl
        · exact .inr (.inl rfl)
        · exact .inr (.inr rfl)
    by_cases hspecial : c = '\\' ∨ c = '%' ∨ c = '_'
    · rw [if_pos (hiff.mpr hspecial)]
      refine Eq.trans ?_ (congrArg Utf8.encode (if_pos hspecial)).symm
      rw [Utf8.encode_cons, Utf8.encode_cons, Utf8.encode_nil, Utf8.encodeChar_of_lt hc]
      rfl
    · rw [if_neg (hiff.not.mpr hspecial)]
      refine Eq.trans ?_ (congrArg Utf8.encode (if_neg hspecial)).symm
      rw [Utf8.encode_cons, Utf8.encode_nil, Utf8.encodeChar_of_lt hc]
      rfl
  · intro b hb
    refine if_neg ?_
    rintro (rfl | rfl | rfl)
    · exact absurd hb (by decide)
    · exact absurd hb (by decide)
    · exact absurd hb (by decide)
  · intro c hc
    refine if_neg ?_
    rintro (rfl | rfl | rfl)
    · exact absurd hc (by decide)
    · exact absurd hc (by decide)
    · exact absurd hc (by decide)

/-- The pattern looks for the keyword itself, read as bytes and read as characters. -/
theorem likePattern_iff (keyword text : Bytes) (k t : List Char) :
    (Like.like likeBytes (likePattern keyword) text = true ↔
      lowercaseAscii keyword <:+: lowercaseAscii text) ∧
    ∃ pattern, Utf8.encode pattern = likePattern (Utf8.encode k) ∧
      (Like.like likeChars pattern t = true ↔ k.map Char.toLower <:+: t.map Char.toLower) := by
  constructor
  · have hsame : ∀ c d, likeBytes.same c d = true ↔
        (if 65 ≤ c ∧ c ≤ 90 then c + 32 else c) = if 65 ≤ d ∧ d ≤ 90 then d + 32 else d := by
      intro c d
      refine decide_eq_true_iff.trans ?_
      exact List.singleton_inj
    exact Like.like_contains_map hsame
  · refine ⟨'%' :: Like.escaped likeChars k ++ ['%'], ?_, ?_⟩
    · rw [likePattern, likeEscape_encode, List.cons_append, Utf8.encode_cons, Utf8.encode_append]
      rfl
    · exact Like.like_contains_map fun c d => decide_eq_true_iff

/-! ## Queries -/

/-- `S.fold` with each row put in front of those before it. -/
def foldRows {α β : Type} (row : α → β) (rows : List α) : List β :=
  rows.foldl (fun acc r => row r :: acc) []

def outputsForCommand (db : Db) (commandId : Nat) : List Mcp.Output :=
  (foldRows (fun o : Output => ⟨o.text, o.imagePath⟩)
    ((db.rowsOf commandId).insertionSort fun a b => a.ordinal ≤ b.ordinal)).reverse

/-- The row of a command with its outputs. -/
def interaction (db : Db) (c : Command) : Interaction := ⟨c.input, c.mode, outputsForCommand db c.id⟩

/-- `WHERE session_id = ?`: the rows that were there when the session began, `before` of them, are
of other sessions. -/
def ofSession (before : Nat) (db : Db) : List Command := db.commands.drop before

/-- `ORDER BY id DESC LIMIT ?`. -/
def newestRows (limit : Int) (rows : List Command) : List Command :=
  (rows.insertionSort fun a b => b.id ≤ a.id).take limit.toNat

def recentInteractions (t : History) (before : Nat) (limit : Int) : Res (List Interaction) :=
  if limit < 0 then .error .assertFailure
  else .ok (foldRows (interaction t.db) (newestRows limit (ofSession before t.db)))

/-- The rows the join keeps, once each: a text that is `NULL` matches nothing. -/
def matchesKeyword (db : Db) (pattern : Bytes) (c : Command) : Bool :=
  Like.like likeBytes pattern c.input ||
    db.outputs.any fun o => o.commandId = c.id && o.text.any (Like.like likeBytes pattern)

def searchInteractions (t : History) (before : Nat) (keyword : Bytes) (limit : Int) :
    Res (List Interaction) :=
  if limit < 0 then .error .assertFailure
  else .ok (foldRows (interaction t.db) (newestRows limit
    ((ofSession before t.db).filter (matchesKeyword t.db (likePattern keyword)))))

theorem foldRows_eq {α β : Type} (row : α → β) (rows : List α) :
    foldRows row rows = (rows.map row).reverse := by
  rw [foldRows, List.foldl_flip_cons_eq_append, List.append_nil]

/-- A row is found when the keyword occurs in its input or in the text of one of its outputs. -/
theorem matchesKeyword_iff (db : Db) (keyword : Bytes) (c : Command) :
    matchesKeyword db (likePattern keyword) c = true ↔
      lowercaseAscii keyword <:+: lowercaseAscii c.input ∨
      ∃ o ∈ db.outputs, o.commandId = c.id ∧ ∃ text, o.text = some text ∧
        lowercaseAscii keyword <:+: lowercaseAscii text := by
  have hlike := fun text => (likePattern_iff keyword text [] []).1
  rw [matchesKeyword, Bool.or_eq_true, hlike, List.any_eq_true]
  refine or_congr_right (exists_congr fun o => and_congr_right fun _ => ?_)
  rw [Bool.and_eq_true, decide_eq_true_eq, Option.any_eq_true]
  simp only [hlike]

/-! ## What the session has seen -/

/-- What changes the store within a session. -/
inductive Operation where
  | add (mode : Bytes) (lines : List UnicodeString)
  | output (kind : Bytes) (text imagePath : Option Bytes)
  | finish (status : Status)

def operate (t : History) : Operation → History
  | .add mode lines => addToHistory t mode lines
  | .output kind text imagePath => recordOutput t kind text imagePath
  | .finish status => finishActive t status

def operateAll (t : History) (ops : List Operation) : History := ops.foldl operate t

/-- The interactions of a session, oldest first: those that are over, and the one that still takes
outputs. -/
structure Log where
  past : List Interaction
  current : Option Interaction

def Log.all (l : Log) : List Interaction := l.past ++ l.current.toList

/-- Each command opens an interaction, and an output is added to the one that is open. -/
def Log.operate (l : Log) : Operation → Log
  | .add mode lines =>
    if trim (promptToString lines) = [] then l
    else ⟨l.all, some ⟨promptToString lines, mode, []⟩⟩
  | .output _ text imagePath =>
    { l with current := l.current.map fun it => { it with outputs := it.outputs ++ [⟨text, imagePath⟩] } }
  | .finish _ => ⟨l.all, none⟩

def logOf (ops : List Operation) : Log := ops.foldl Log.operate ⟨[], none⟩

/-- The row a command is stored in, and those of its outputs. -/
structure Stores (db : Db) (c : Command) (it : Interaction) : Prop where
  input : c.input = it.input
  mode : c.mode = it.mode
  outputs : (db.rowsOf c.id).map (fun o => (⟨o.text, o.imagePath⟩ : Mcp.Output)) = it.outputs
  numbered : db.Numbered c.id

/-- The store holds a log behind the `before` rows of other sessions: in the rows `past` what is
over, in `cur` what is open. -/
structure Holds (t : History) (before : Nat) (past : List Command) (cur : Option Command) (l : Log) :
    Prop where
  keyed : t.db.Referential
  before_le : before ≤ t.db.commands.length
  rows : ofSession before t.db = past ++ cur.toList
  increasing : ((past ++ cur.toList).map Command.id).Pairwise (· < ·)
  stored : List.Forall₂ (Stores t.db) past l.past
  current : Option.Rel (Stores t.db) cur l.current
  active : t.activeCommandId = cur.map Command.id
  ordinal : ∀ c ∈ cur, t.activeOutputOrdinal = (t.db.rowsOf c.id).length

variable {t t' : History} {before : Nat} {past : List Command} {cur : Option Command} {l : Log}
  {db db' : Db} {c c' : Command} {it : Interaction}

theorem holds_init (h : db.Referential) :
    Holds (init db) db.commands.length [] none ⟨[], none⟩ where
  keyed := h
  before_le := Nat.le_refl _
  rows := List.drop_length
  increasing := .nil
  stored := .nil
  current := .none
  active := rfl
  ordinal _ hc := by cases hc

/-- All rows of the session are those of the log. -/
theorem Holds.all (h : Holds t before past cur l) :
    List.Forall₂ (Stores t.db) (past ++ cur.toList) l.all := by
  refine List.rel_append h.stored ?_
  have hcur := h.current
  cases hl : l.current with
  | none =>
    rw [hl] at hcur
    cases hcur
    exact .nil
  | some it =>
    rw [hl] at hcur
    cases hcur with
    | some hc => exact .cons hc .nil

/-- Only the outputs of the command and what it is count, not its status. -/
theorem Stores.same (h : Stores db c it) (hrows : db'.rowsOf c.id = db.rowsOf c.id)
    (hid : c'.id = c.id) (hinput : c'.input = c.input) (hmode : c'.mode = c.mode) :
    Stores db' c' it := by
  refine ⟨hinput.trans h.input, hmode.trans h.mode, ?_, ?_⟩
  · rw [hid, hrows]
    exact h.outputs
  · rw [Db.Numbered, hid, hrows]
    exact h.numbered

theorem lt_nextId (db : Db) : ∀ id ∈ db.ids, id < db.nextId := by
  intro id hid
  exact Nat.lt_succ_of_le (List.le_max_of_le' 0 hid (Nat.le_refl id))

/-! ## What an operation leaves stored -/

theorem Holds.finish (h : Holds t before past cur l) (status : Status) :
    ∃ past', Holds (finishActive t status) before past' none ⟨l.all, none⟩ := by
  have hset : ∃ f : Command → Command, (∀ c, (f c).id = c.id ∧ (f c).input = c.input ∧
      (f c).mode = c.mode) ∧ (finishActive t status).db.commands = t.db.commands.map f := by
    unfold finishActive
    split
    · exact ⟨id, fun _ => ⟨rfl, rfl, rfl⟩, (List.map_id _).symm⟩
    · refine ⟨_, fun c => ?_, rfl⟩
      split <;> exact ⟨rfl, rfl, rfl⟩
  obtain ⟨f, hf, hcommands⟩ := hset
  have hids : ∀ l : List Command, (l.map f).map Command.id = l.map Command.id := fun l => by
    rw [List.map_map]
    exact List.map_congr_left fun c _ => (hf c).1
  refine ⟨(past ++ cur.toList).map f, ?_, ?_, ?_, ?_, ?_, .none, finishActive_active t status, ?_⟩
  · intro o ho
    rw [finishActive_ids]
    rw [finishActive_outputs] at ho
    exact h.keyed o ho
  · rw [hcommands, List.length_map]
    exact h.before_le
  · rw [ofSession, hcommands, ← List.map_drop]
    exact (congrArg (List.map f) h.rows).trans (List.append_nil _).symm
  · rw [Option.toList_none, List.append_nil, hids]
    exact h.increasing
  · refine List.forall₂_map_left_iff.mpr (h.all.imp fun c it hc => ?_)
    exact hc.same (finishActive_rowsOf t status c.id) (hf c).1 (hf c).2.1 (hf c).2.2
  · intro c hc
    cases hc

theorem Holds.output (h : Holds t before past cur l) (kind : Bytes) (text imagePath : Option Bytes) :
    Holds (recordOutput t kind text imagePath) before past cur
      (l.operate (.output kind text imagePath)) := by
  obtain ⟨hactive, -, hcommands⟩ := recordOutput_frame t kind text imagePath
  obtain ⟨past₀, current⟩ := l
  have hcurrent := h.current
  have hact := h.active
  cases cur with
  | none =>
    rw [recordOutput_idle hact]
    cases hcurrent
    exact h
  | some c =>
    obtain ⟨it, rfl, hstores⟩ : ∃ it, current = some it ∧ Stores t.db c it := by
      cases hcurrent with
      | some hc => exact ⟨_, rfl, hc⟩
    have hrowsOf := recordOutput_rowsOf hact kind text imagePath
    have hbefore : ∀ c' ∈ past, c'.id ≠ c.id := by
      intro c' hc' heq
      have hlt := h.increasing
      rw [List.map_append, List.pairwise_append] at hlt
      have := hlt.2.2 c'.id (List.mem_map_of_mem hc') c.id (by simp)
      omega
    have hmem : c.id ∈ t.db.ids := by
      have : c ∈ ofSession before t.db := by
        rw [h.rows]
        exact List.mem_append_right _ (by simp)
      exact List.mem_map_of_mem (List.mem_of_mem_drop this)
    refine ⟨?_, ?_, ?_, h.increasing, ?_, .some ⟨hstores.input, hstores.mode, ?_, ?_⟩,
      hactive.trans hact, ?_⟩
    · have houtputs : (recordOutput t kind text imagePath).db.outputs = t.db.outputs ++
          [⟨c.id, t.activeOutputOrdinal, kind, text, imagePath⟩] := by
        rw [recordOutput, hact]
        rfl
      intro o ho
      rw [Db.ids, hcommands]
      rw [houtputs, List.mem_append, List.mem_singleton] at ho
      obtain ho | rfl := ho
      · exact h.keyed o ho
      · exact hmem
    · rw [hcommands]
      exact h.before_le
    · rw [ofSession, hcommands]
      exact h.rows
    · have hsame : ∀ c' ∈ past, (recordOutput t kind text imagePath).db.rowsOf c'.id =
          t.db.rowsOf c'.id := fun c' hc' =>
        (recordOutput_untouched (fun heq => hbefore c' hc' (Option.some.inj (hact.symm.trans heq)).symm)
          kind text imagePath).rows
      refine List.forall₂_iff_get.mpr ⟨h.stored.length_eq, fun i hi hi' => ?_⟩
      exact ((List.forall₂_iff_get.mp h.stored).2 i hi hi').same (hsame _ (List.getElem_mem hi))
        rfl rfl rfl
    · rw [hrowsOf, List.map_append, hstores.outputs]
      rfl
    · rw [Db.Numbered, hrowsOf, List.map_append, hstores.numbered, List.length_append,
        List.length_singleton, List.range_succ, h.ordinal c rfl]
      rfl
    · rintro _ ⟨⟩
      have hnext : (recordOutput t kind text imagePath).activeOutputOrdinal =
          t.activeOutputOrdinal + 1 := by
        rw [recordOutput, hact]
        rfl
      rw [hnext, hrowsOf, List.length_append, List.length_singleton, h.ordinal c rfl]

theorem Holds.add (h : Holds t before past cur l) (mode : Bytes) (lines : List UnicodeString) :
    ∃ past' cur', Holds (addToHistory t mode lines) before past' cur'
      (l.operate (.add mode lines)) := by
  unfold addToHistory Log.operate
  dsimp only
  split
  · exact ⟨past, cur, h⟩
  · obtain ⟨past', h'⟩ := h.finish .interrupted
    generalize finishActive t .interrupted = t' at h'
    have hnew : t'.db.nextId ∉ t'.db.ids := t'.db.nextId_not_mem
    have hempty := h'.keyed.rowsOf_nil hnew
    have hrows := h'.rows
    rw [Option.toList_none, List.append_nil] at hrows
    have hinc := h'.increasing
    rw [Option.toList_none, List.append_nil] at hinc
    refine ⟨past', some ⟨t'.db.nextId, mode, promptToString lines, .running⟩, ?_, ?_, ?_, ?_, ?_, ?_,
      rfl, ?_⟩
    · intro o ho
      rw [Db.ids, List.map_append]
      exact List.mem_append_left _ (h'.keyed o ho)
    · rw [List.length_append]
      exact Nat.le_add_right_of_le h'.before_le
    · rw [ofSession, List.drop_append_of_le_length h'.before_le]
      exact congrArg (· ++ _) hrows
    · rw [Option.toList_some, List.map_append, List.pairwise_append]
      refine ⟨hinc, List.pairwise_singleton _ _, fun id hid id' hid' => ?_⟩
      rw [List.map_singleton, List.mem_singleton] at hid'
      subst hid'
      obtain ⟨c, hc, rfl⟩ := List.mem_map.mp hid
      rw [← hrows] at hc
      exact lt_nextId _ _ (List.mem_map_of_mem (List.mem_of_mem_drop hc))
    · exact h'.stored.imp fun c it hc => hc.same rfl rfl rfl rfl
    · refine .some ⟨rfl, rfl, ?_, ?_⟩
      · exact congrArg (List.map _) hempty
      · show (t'.db.rowsOf _).map Output.ordinal = List.range (t'.db.rowsOf _).length
        rw [hempty]
        rfl
    · rintro _ ⟨⟩
      exact (congrArg List.length hempty).symm

theorem Holds.operate (h : Holds t before past cur l) (op : Operation) :
    ∃ past' cur', Holds (operate t op) before past' cur' (l.operate op) := by
  cases op with
  | add mode lines => exact h.add mode lines
  | output kind text imagePath => exact ⟨past, cur, h.output kind text imagePath⟩
  | finish status =>
    obtain ⟨past', h'⟩ := h.finish status
    exact ⟨past', none, h'⟩

theorem holds_operateAll (h : Holds t before past cur l) (ops : List Operation) :
    ∃ past' cur', Holds (operateAll t ops) before past' cur' (ops.foldl Log.operate l) := by
  induction ops generalizing t past cur l with
  | nil => exact ⟨past, cur, h⟩
  | cons op ops ih =>
    obtain ⟨past', cur', h'⟩ := h.operate op
    exact ih h'

/-! ## What the queries read -/

theorem Stores.interaction_eq (h : Stores db c it) : interaction db c = it := by
  have hsorted : (db.rowsOf c.id).Pairwise fun a b => a.ordinal ≤ b.ordinal := by
    have hrange := (List.pairwise_lt_range (n := (db.rowsOf c.id).length)).imp Nat.le_of_lt
    rw [← h.numbered] at hrange
    exact List.pairwise_map.mp hrange
  have houtputs : outputsForCommand db c.id = it.outputs := by
    rw [outputsForCommand, hsorted.insertionSort_eq, foldRows_eq, List.reverse_reverse]
    exact h.outputs
  rw [interaction, h.input, h.mode, houtputs]

theorem orderedInsert_last {α : Type} {r : α → α → Prop} [DecidableRel r] {a : α} {l : List α}
    (h : ∀ b ∈ l, ¬ r a b) : l.orderedInsert r a = l ++ [a] := by
  induction l with
  | nil => rfl
  | cons b l ih =>
    rw [List.orderedInsert_cons, if_neg (h b List.mem_cons_self),
      ih fun b hb => h b (List.mem_cons_of_mem _ hb)]
    rfl

theorem newestRows_eq {rows : List Command} (h : (rows.map Command.id).Pairwise (· < ·)) (limit : Int) :
    newestRows limit rows = rows.reverse.take limit.toNat := by
  rw [newestRows]
  congr 1
  induction rows with
  | nil => rfl
  | cons c rows ih =>
    rw [List.map_cons, List.pairwise_cons] at h
    rw [List.insertionSort_cons, ih h.2, List.reverse_cons]
    refine orderedInsert_last fun c' hc' hle => ?_
    have hlt := h.1 c'.id (List.mem_map_of_mem (List.mem_reverse.mp hc'))
    omega

/-- The newest interactions of a log, oldest first. -/
def Log.newest (l : Log) (limit : Int) : List Interaction := l.all.drop (l.all.length - limit.toNat)

theorem Holds.recentInteractions (h : Holds t before past cur l) {limit : Int} (hlimit : 0 ≤ limit) :
    recentInteractions t before limit = .ok (l.newest limit) := by
  have hmap : (past ++ cur.toList).map (interaction t.db) = l.all := by
    refine List.ext_get (by rw [List.length_map]; exact h.all.length_eq) fun i hi hi' => ?_
    rw [List.get_eq_getElem, List.getElem_map]
    exact ((List.forall₂_iff_get.mp h.all).2 i (by rwa [List.length_map] at hi) hi').interaction_eq
  rw [History.recentInteractions, if_neg (Int.not_lt.mpr hlimit), h.rows, newestRows_eq h.increasing,
    List.take_reverse, foldRows_eq, List.map_reverse, List.reverse_reverse, List.map_drop, hmap,
    h.all.length_eq]
  rfl

/-! ## The tool -/

/-- The store as the server calls it. -/
def calls (t : History) (before : Nat) (runRSandboxed : Bytes → Res Bytes)
    (onSuggestion : Bytes → Res Unit) : Calls where
  recentInteractions := recentInteractions t before
  searchInteractions := searchInteractions t before
  runRSandboxed := runRSandboxed
  onSuggestion := onSuggestion

/-- The interactions that `get_history` numbers and prints. -/
def listed (calls : Calls) (limit : Int) : Res (List Interaction) := do
  return (← calls.recentInteractions limit).reverse

def historyText : List Interaction → Bytes
  | [] => bytes "(no history yet)"
  | it :: its => formatInteractions (it :: its)

theorem getHistory_eq (calls : Calls) (limit : Int) :
    getHistory calls limit = (listed calls limit).map historyText := by
  unfold getHistory listed
  cases calls.recentInteractions limit with
  | error e => rfl
  | ok its =>
    dsimp only [Bind.bind, Except.bind, pure, Except.pure, Except.map]
    cases its.reverse <;> rfl

theorem getHistory_chronological_iff {db : Db} (hdb : db.Referential) (ops : List Operation)
    {limit : Int} (hlimit : 0 ≤ limit) (runRSandboxed : Bytes → Res Bytes)
    (onSuggestion : Bytes → Res Unit) :
    let calls := calls (operateAll (init db) ops) db.commands.length runRSandboxed onSuggestion
    let newest := (logOf ops).newest limit
    ∃ its, listed calls limit = .ok its ∧ getHistory calls limit = .ok (historyText its) ∧
      (its.map formatInteraction = newest.map formatInteraction ↔
        (newest.map formatInteraction).Palindrome) := by
  intro calls newest
  obtain ⟨past, cur, h⟩ := holds_operateAll (holds_init hdb) ops
  have hlisted : listed calls limit = .ok newest.reverse := by
    have hrecent : calls.recentInteractions limit = .ok newest := h.recentInteractions hlimit
    rw [listed, hrecent]
    rfl
  refine ⟨newest.reverse, hlisted, ?_, ?_⟩
  · rw [getHistory_eq, hlisted]
    rfl
  · rw [List.map_reverse]
    exact List.Palindrome.iff_reverse_eq.symm

def oneLetter (s : String) : List UnicodeString := [⟨bytes s, [0], [1]⟩]

theorem getHistory_chronological_one :
    let calls := calls (operateAll (init ⟨[], []⟩) [.add (bytes "r") (oneLetter "a")]) 0 .ok
      fun _ => .ok ()
    let newest := (logOf [.add (bytes "r") (oneLetter "a")]).newest 20
    ∃ its, listed calls 20 = .ok its ∧ getHistory calls 20 = .ok (historyText its) ∧
      (its.map formatInteraction = newest.map formatInteraction ↔
        (newest.map formatInteraction).Palindrome) :=
  getHistory_chronological_iff (by intro _ ho; cases ho) _ (by decide) _ _

/-- Of two commands the newer one is listed first. -/
theorem getHistory_newest_first : ¬ ∀ (db : Db) (ops : List Operation) (limit : Int),
    db.Referential → 0 ≤ limit →
      getHistory (calls (operateAll (init db) ops) db.commands.length .ok fun _ => .ok ()) limit =
        .ok (historyText ((logOf ops).newest limit)) := by
  intro h
  have := h ⟨[], []⟩ [.add (bytes "r") (oneLetter "a"), .add (bytes "r") (oneLetter "b")] 2
    (by intro _ ho; cases ho) (by decide)
  exact absurd this (by decide +kernel)

end History
end Raoui
