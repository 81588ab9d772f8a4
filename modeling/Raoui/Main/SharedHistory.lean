import Mathlib.Logic.Function.Basic
import Raoui.Ai.Interactions
import Raoui.Lib.Transition

/-!
# Raoui.Main.SharedHistory

One history file that any number of raoui sessions have open. Each session runs the calls of
`lib/history.ml` one after the other; a call is a sequence of SQL statements, and those of other
sessions may come between them. A statement that finds the file locked raises, which ends its session;
that is left out.

* `perform_statements`: the statements of a call, one after the other, are the call.
* `Shared.view`: the rows of one session. Its own statements do to them what they do to a store of its
  own (`step_own`); those of others leave them (`step_other`).
* `sessions_isolated`: what a session reads of the file is what it would read of one of its own.
-/

namespace Raoui
namespace SharedHistory

open Ffi (ResponseChunk)
open History (Db Status Command Output Operation Holds Log finishActive recordOutput addToHistory
  recordResponse recordContent recordCancel promptToString init interaction newestRows matchesKeyword
  likePattern foldRows closingStatus responseOutput isBlank)
open Transition (Run)

/-! ## Calls and their statements -/

inductive Statement where
  /-- The `UPDATE` of `finish_active`. -/
  | finish (status : Status)
  /-- The `INSERT` of `add_to_history`, with the row id it asks for next. -/
  | insert (mode : Bytes) (lines : List UnicodeString)
  /-- The `INSERT` of `record_output`; an error is noted before it. -/
  | output (failed : Bool) (kind : Bytes) (text imagePath : Option Bytes)
  deriving DecidableEq, Repr

def Statement.inserts : Statement → Bool
  | .insert _ _ => true
  | .finish _ | .output _ _ _ _ => false

/-- The row gets the key `id`. -/
def insertAt (id : Nat) (t : History) (mode : Bytes) (lines : List UnicodeString) : History :=
  { t with
    currentIndex := 0
    savedPrompt := none
    searchNeedle := none
    history := t.history ++ [⟨mode, promptToString lines⟩]
    db := { t.db with commands := t.db.commands ++ [⟨id, mode, promptToString lines, .running⟩] }
    activeCommandId := some id
    activeCommandHadError := false
    activeOutputOrdinal := 0 }

def note (t : History) (failed : Bool) : History :=
  if failed then { t with activeCommandHadError := true } else t

def perform (t : History) : Statement → History
  | .finish status => finishActive t status
  | .insert mode lines => insertAt t.db.nextId t mode lines
  | .output failed kind text imagePath => recordOutput (note t failed) kind text imagePath

inductive Call where
  | addToHistory (mode : Bytes) (lines : List UnicodeString)
  | recordResponse (r : ResponseChunk)
  | recordCancel
  | close
  deriving DecidableEq, Repr

/-- The call as it is without other sessions. -/
def Call.run (t : History) : Call → History
  | .addToHistory mode lines => History.addToHistory t mode lines
  | .recordResponse r => History.recordResponse t r
  | .recordCancel => History.recordCancel t
  | .close => finishActive t .interrupted

def contentStatements (r : ResponseChunk) : List Statement :=
  match responseOutput r with
  | none => []
  | some (kind, text, imagePath) => [.output r.isError kind text imagePath]

def Call.statements : Call → List Statement
  | .addToHistory mode lines =>
    if isBlank lines then [] else [.finish .interrupted, .insert mode lines]
  | .recordResponse r =>
    contentStatements r ++
      match closingStatus r with
      | none => []
      | some status => [.finish status]
  | .recordCancel | .close => [.finish .interrupted]

theorem perform_statements (t : History) (c : Call) : c.statements.foldl perform t = c.run t := by
  cases c with
  | addToHistory mode lines =>
    show List.foldl perform t (if isBlank lines then [] else _) = History.addToHistory t mode lines
    cases hblank : isBlank lines with
    | true => exact (History.addToHistory_blank hblank mode).symm
    | false => exact (if_neg (of_decide_eq_false hblank)).symm
  | recordResponse r =>
    have hcontent : (contentStatements r).foldl perform t = recordContent t r := by
      unfold contentStatements recordContent
      cases responseOutput r <;> rfl
    show List.foldl perform t (_ ++ _) = History.recordResponse t r
    rw [List.foldl_append, hcontent, History.recordResponse_eq]
    cases closingStatus r <;> rfl
  | recordCancel => rfl
  | close => rfl

/-! ## Sessions -/

structure Connection where
  /-- The record of the session; its database is the file. -/
  t : History
  /-- The statements of the call under way. -/
  todo : List Statement
  closing : Bool
  deriving DecidableEq, Repr

/-- `sessionOf` is the column `session_id` of a command, `none` for sessions of an earlier time. -/
structure Shared where
  db : Db
  sessionOf : Nat → Option Nat
  connections : Nat → Option Connection

def start (db : Db) : Shared := ⟨db, fun _ => none, fun _ => none⟩

inductive Action where
  | opens
  | calls (c : Call)
  | performs (st : Statement)
  deriving DecidableEq, Repr

def Shared.connect (s : Shared) (i : Nat) (c : Connection) : Shared :=
  { s with connections := Function.update s.connections i (some c) }

/-- Session `i` performs a statement on the file. -/
def Shared.performs (s : Shared) (i : Nat) (c : Connection) (st : Statement)
    (todo : List Statement) : Shared :=
  let t := perform { c.t with db := s.db } st
  { db := t.db
    sessionOf :=
      if st.inserts then Function.update s.sessionOf s.db.nextId (some i) else s.sessionOf
    connections := Function.update s.connections i (some ⟨t, todo, c.closing⟩) }

section
variable {s : Shared} {i j : Nat} {c : Connection} {st : Statement} {todo : List Statement}

@[simp] theorem connect_self : (s.connect i c).connections i = some c := Function.update_self ..

@[simp] theorem connect_of_ne (h : j ≠ i) : (s.connect i c).connections j = s.connections j :=
  Function.update_of_ne h ..

@[simp] theorem performs_self : (s.performs i c st todo).connections i =
    some ⟨perform { c.t with db := s.db } st, todo, c.closing⟩ := Function.update_self ..

@[simp] theorem performs_of_ne (h : j ≠ i) :
    (s.performs i c st todo).connections j = s.connections j := Function.update_of_ne h ..

/-- Only the row that the statement adds gets a session. -/
theorem performs_sessionOf {id : Nat} (h : st.inserts = true → id ≠ s.db.nextId) :
    (s.performs i c st todo).sessionOf id = s.sessionOf id := by
  show (if st.inserts then Function.update s.sessionOf s.db.nextId (some i)
    else s.sessionOf) id = s.sessionOf id
  split
  · rename_i hinserts
    exact Function.update_of_ne (h hinserts) ..
  · rfl

theorem performs_nextId (h : st.inserts = true) :
    (s.performs i c st todo).sessionOf s.db.nextId = some i := by
  show (if st.inserts then Function.update s.sessionOf s.db.nextId (some i)
    else s.sessionOf) s.db.nextId = some i
  rw [if_pos h, Function.update_self]

end

def step (s : Shared) (a : Nat × Action) : Option Shared :=
  match a.2, s.connections a.1 with
  | .opens, none => some (s.connect a.1 ⟨init s.db, [], false⟩)
  | .calls c, some ⟨t, [], false⟩ => some (s.connect a.1 ⟨t, c.statements, c = .close⟩)
  | .performs st, some ⟨t, st' :: todo, closing⟩ =>
    if st = st' then some (s.performs a.1 ⟨t, [], closing⟩ st todo) else none
  | _, _ => none

def Step (s : Shared) (a : Nat × Action) (s' : Shared) : Prop := step s a = some s'

/-- What the step of a session does. -/
inductive Steps (s : Shared) (i : Nat) : Action → Shared → Prop where
  | opens : s.connections i = none → Steps s i .opens (s.connect i ⟨init s.db, [], false⟩)
  | calls {t : History} {c : Call} : s.connections i = some ⟨t, [], false⟩ →
      Steps s i (.calls c) (s.connect i ⟨t, c.statements, c = .close⟩)
  | performs {c : Connection} {st : Statement} {todo : List Statement} :
      s.connections i = some { c with todo := st :: todo } →
      Steps s i (.performs st) (s.performs i c st todo)

theorem step_cases {s s' : Shared} {i : Nat} {a : Action} (h : Step s (i, a) s') :
    Steps s i a s' := by
  unfold Step step at h
  dsimp only at h
  split at h
  · rename_i hnone
    cases h
    exact .opens hnone
  · rename_i hsome
    cases h
    exact .calls hsome
  · rename_i st t st' todo closing hsome
    split at h
    · rename_i heq
      cases heq
      cases h
      exact .performs (c := ⟨t, [], closing⟩) hsome
    · cases h
  · cases h

/-! ## The rows of a session -/

/-- The rows of the commands that `p` holds of. -/
def only (db : Db) (p : Nat → Bool) : Db where
  commands := db.commands.filter fun c => p c.id
  outputs := db.outputs.filter fun o => p o.commandId

def Shared.own (s : Shared) (i id : Nat) : Bool := s.sessionOf id = some i

/-- The rows of session `i`, as a store of its own. -/
def Shared.view (s : Shared) (i : Nat) : Db := only s.db (s.own i)

/-- `recent_interactions` of session `i`. -/
def Shared.recentInteractions (s : Shared) (i : Nat) (limit : Int) : Res (List Mcp.Interaction) :=
  if limit < 0 then .error .assertFailure
  else .ok (foldRows (interaction s.db)
    (newestRows limit (s.db.commands.filter fun c => s.own i c.id)))

/-- `search_interactions` of session `i`. -/
def Shared.searchInteractions (s : Shared) (i : Nat) (keyword : Bytes) (limit : Int) :
    Res (List Mcp.Interaction) :=
  if limit < 0 then .error .assertFailure
  else .ok (foldRows (interaction s.db) (newestRows limit
    ((s.db.commands.filter fun c => s.own i c.id).filter
      (matchesKeyword s.db (likePattern keyword)))))

/-- What keeps the rows of the sessions apart: every row of `outputs` has its command, a row that has
a session is there, and a session's active command is one of its own. -/
structure Kept (s : Shared) : Prop where
  keyed : s.db.Referential
  owned : ∀ id i, s.sessionOf id = some i → id ∈ s.db.ids
  active : ∀ i c id, s.connections i = some c → c.t.activeCommandId = some id →
    s.sessionOf id = some i

theorem kept_start {db : Db} (h : db.Referential) : Kept (start db) where
  keyed := h
  owned _ _ hid := by cases hid
  active _ _ _ hc := by cases hc

variable {s s' : Shared} {i j : Nat} {c : Connection} {st : Statement} {todo : List Statement}
  {t : History} {a : Action} {id : Nat}

theorem Kept.nextId (h : Kept s) : s.sessionOf s.db.nextId ≠ some i := fun hid =>
  s.db.nextId_not_mem (h.owned _ _ hid)

/-! ## Statements -/

theorem note_active (failed : Bool) : (note t failed).activeCommandId = t.activeCommandId := by
  unfold note
  split <;> rfl

theorem note_db (failed : Bool) : (note t failed).db = t.db := by
  unfold note
  split <;> rfl

/-- A row of `commands` keeps its key, and a new one has the next. -/
theorem perform_ids (t : History) (st : Statement) :
    (perform t st).db.ids = t.db.ids ++ if st.inserts then [t.db.nextId] else [] := by
  cases st with
  | finish status => exact (History.finishActive_ids t status).trans (List.append_nil _).symm
  | insert mode lines => exact List.map_append
  | output failed kind text imagePath =>
    refine Eq.trans ?_ (List.append_nil _).symm
    show List.map Command.id (recordOutput (note t failed) kind text imagePath).db.commands = _
    rw [(History.recordOutput_frame ..).2.2, note_db]
    rfl

/-- Afterwards the active command is the one before, the new one or none. -/
theorem perform_active (t : History) (st : Statement)
    (h : (perform t st).activeCommandId = some id) :
    st.inserts = false ∧ t.activeCommandId = some id ∨ st.inserts = true ∧ id = t.db.nextId := by
  cases st with
  | finish status =>
    rw [perform, History.finishActive_active] at h
    cases h
  | insert mode lines => exact .inr ⟨rfl, (Option.some.inj h).symm⟩
  | output failed kind text imagePath =>
    refine .inl ⟨rfl, ?_⟩
    rw [perform, (History.recordOutput_frame ..).1, note_active] at h
    exact h

theorem perform_referential {t : History} (h : t.db.Referential)
    (hactive : ∀ id, t.activeCommandId = some id → id ∈ t.db.ids) (st : Statement) :
    (perform t st).db.Referential := by
  intro o ho
  rw [perform_ids, List.mem_append]
  cases st with
  | finish status =>
    rw [perform, History.finishActive_outputs] at ho
    exact .inl (h o ho)
  | insert mode lines => exact .inl (h o ho)
  | output failed kind text imagePath =>
    left
    cases hid : (note t failed).activeCommandId with
    | none =>
      rw [perform, History.recordOutput_idle hid, note_db] at ho
      exact h o ho
    | some id =>
      simp only [perform, recordOutput, hid, note_db, List.mem_append, List.mem_singleton] at ho
      obtain ho | rfl := ho
      · exact h o ho
      · exact hactive id ((note_active failed).symm.trans hid)

theorem Kept.step (h : Kept s) (hstep : Step s (i, a) s') : Kept s' := by
  cases step_cases hstep with
  | opens hnone =>
    refine ⟨h.keyed, h.owned, fun j c id hc hid => ?_⟩
    by_cases hj : j = i
    · subst hj
      rw [connect_self] at hc
      cases hc
      cases hid
    · rw [connect_of_ne hj] at hc
      exact h.active j c id hc hid
  | calls hsome =>
    refine ⟨h.keyed, h.owned, fun j c id hc hid => ?_⟩
    by_cases hj : j = i
    · subst hj
      rw [connect_self] at hc
      cases hc
      exact h.active j _ id hsome hid
    · rw [connect_of_ne hj] at hc
      exact h.active j c id hc hid
  | @performs c st todo hsome =>
    have hmem : ∀ id, ({ c.t with db := s.db } : History).activeCommandId = some id → id ∈ s.db.ids :=
      fun id hid => h.owned id i (h.active i _ id hsome hid)
    have hkeep {id k : Nat} (hold : s.sessionOf id = some k) :
        (s.performs i c st todo).sessionOf id = some k := by
      rw [performs_sessionOf fun _ heq => h.nextId (heq ▸ hold)]
      exact hold
    refine ⟨perform_referential h.keyed hmem st, fun id j hid => ?_, fun j c' id hc' hid => ?_⟩
    · show id ∈ (perform { c.t with db := s.db } st).db.ids
      rw [perform_ids, List.mem_append]
      by_cases hnext : st.inserts = true ∧ id = s.db.nextId
      · exact .inr (by rw [if_pos hnext.1]; exact List.mem_singleton.mpr hnext.2)
      · rw [performs_sessionOf fun hinserts heq => hnext ⟨hinserts, heq⟩] at hid
        exact .inl (h.owned id j hid)
    · by_cases hj : j = i
      · subst hj
        rw [performs_self] at hc'
        cases hc'
        obtain ⟨-, hold⟩ | ⟨hinserts, rfl⟩ := perform_active _ st hid
        · exact hkeep (h.active j _ id hsome hold)
        · exact performs_nextId hinserts
      · rw [performs_of_ne hj] at hc'
        exact hkeep (h.active j c' id hc' hid)

/-! ## Views -/

/-- The statement with the key that its row gets. -/
def performAt (id : Nat) (t : History) : Statement → History
  | .insert mode lines => insertAt id t mode lines
  | st => perform t st

section
variable {p q : Nat → Bool} {db : Db}

theorem only_congr (h : db.Referential) (hpq : ∀ id ∈ db.ids, p id = q id) : only db p = only db q := by
  have hcommands : db.commands.filter (fun c => p c.id) = db.commands.filter fun c => q c.id :=
    List.filter_congr fun c hc => hpq c.id (List.mem_map_of_mem hc)
  have houtputs : db.outputs.filter (fun o => p o.commandId) =
      db.outputs.filter fun o => q o.commandId :=
    List.filter_congr fun o ho => hpq o.commandId (h o ho)
  rw [only, hcommands, houtputs]
  rfl

theorem only_setStatus (id : Nat) (status : Status) :
    only (db.setStatus id status) p = (only db p).setStatus id status := by
  have hcommands : (db.setStatus id status).commands.filter (fun c => p c.id) =
      (db.commands.filter fun c => p c.id).map fun c => if c.id = id then { c with status } else c := by
    refine List.filter_map.trans (congrArg (List.map _) (List.filter_congr fun c _ => ?_))
    show p (if c.id = id then { c with status } else c).id = p c.id
    split <;> rfl
  rw [only, hcommands]
  rfl

theorem setStatus_absent {id : Nat} (h : id ∉ db.ids) (status : Status) :
    db.setStatus id status = db := by
  have hcommands : db.commands.map (fun c => if c.id = id then { c with status } else c) =
      db.commands := by
    refine (List.map_congr_left fun c hc => ?_).trans (List.map_id' _)
    have hne : c.id ≠ id := by
      rintro rfl
      exact h (List.mem_map_of_mem hc)
    exact if_neg hne
  rw [Db.setStatus, hcommands]

theorem not_mem_only {id : Nat} (h : p id = false) : id ∉ (only db p).ids := by
  intro hmem
  obtain ⟨c, hc, rfl⟩ := List.mem_map.mp hmem
  have hp := (List.mem_filter.mp hc).2
  rw [h] at hp
  cases hp

/-- A statement leaves the rows of `p` if neither the active command nor the new row is one. -/
theorem only_perform_other (hactive : ∀ id, t.activeCommandId = some id → p id = false)
    (hnew : st.inserts = true → p t.db.nextId = false) :
    only (perform t st).db p = only t.db p := by
  cases st with
  | finish status =>
    show only (finishActive t status).db p = _
    unfold finishActive
    split
    · rfl
    · rename_i id hid
      rw [only_setStatus, setStatus_absent (not_mem_only (hactive id hid))]
  | insert mode lines =>
    have hcommands : (t.db.commands ++ [(⟨t.db.nextId, mode, promptToString lines, .running⟩ :
        Command)]).filter (fun c => p c.id) = t.db.commands.filter fun c => p c.id := by
      rw [List.filter_append, List.filter_singleton, hnew rfl]
      exact List.append_nil _
    show only { t.db with commands := t.db.commands ++ _ } p = _
    rw [only, hcommands]
    rfl
  | output failed kind text imagePath =>
    cases hid : (note t failed).activeCommandId with
    | none => rw [perform, History.recordOutput_idle hid, note_db]
    | some id =>
      have hp : p id = false := hactive id ((note_active failed).symm.trans hid)
      have houtputs : (t.db.outputs ++ [(⟨id, (note t failed).activeOutputOrdinal, kind, text,
          imagePath⟩ : Output)]).filter (fun o => p o.commandId) =
          t.db.outputs.filter fun o => p o.commandId := by
        rw [List.filter_append, List.filter_singleton, hp]
        exact List.append_nil _
      have hdb : (perform t (.output failed kind text imagePath)).db = { t.db with
          outputs := t.db.outputs ++ [⟨id, (note t failed).activeOutputOrdinal, kind, text,
            imagePath⟩] } := by
        simp only [perform, recordOutput, hid, note_db]
      rw [hdb, only, houtputs]
      rfl

/-- A statement of the session that has the rows of `p` does to them what it does to the whole. -/
theorem only_perform_own (hactive : ∀ id, t.activeCommandId = some id → p id = true)
    (hnew : st.inserts = true → p t.db.nextId = true) :
    { perform t st with db := only (perform t st).db p } =
      performAt t.db.nextId { t with db := only t.db p } st := by
  cases st with
  | finish status =>
    obtain ⟨db, history, index, saved, needle, active, hadError, ordinal⟩ := t
    cases active with
    | none => rfl
    | some id => exact congrArg (History.mk · _ _ _ _ _ _ _) (only_setStatus id _)
  | insert mode lines =>
    have hcommands : (t.db.commands ++ [(⟨t.db.nextId, mode, promptToString lines, .running⟩ :
        Command)]).filter (fun c => p c.id) = (t.db.commands.filter fun c => p c.id) ++
          [⟨t.db.nextId, mode, promptToString lines, .running⟩] := by
      rw [List.filter_append, List.filter_singleton, hnew rfl]
      rfl
    show ({ insertAt t.db.nextId t mode lines with
      db := only { t.db with commands := t.db.commands ++ _ } p } : History) = _
    rw [only, hcommands]
    rfl
  | output failed kind text imagePath =>
    have hnote : note { t with db := only t.db p } failed =
        { note t failed with db := only (note t failed).db p } := by
      rw [note_db]
      unfold note
      split <;> rfl
    have hown : ∀ id, (note t failed).activeCommandId = some id → p id = true := fun id hid =>
      hactive id ((note_active failed).symm.trans hid)
    show ({ recordOutput (note t failed) kind text imagePath with
        db := only (recordOutput (note t failed) kind text imagePath).db p } : History) =
      recordOutput (note { t with db := only t.db p } failed) kind text imagePath
    rw [hnote]
    generalize note t failed = t' at hown
    obtain ⟨db, history, index, saved, needle, active, hadError, ordinal⟩ := t'
    cases active with
    | none => rfl
    | some id =>
      have houtputs : (db.outputs ++ [(⟨id, ordinal, kind, text, imagePath⟩ : Output)]).filter
          (fun o => p o.commandId) =
          (db.outputs.filter fun o => p o.commandId) ++ [⟨id, ordinal, kind, text, imagePath⟩] := by
        rw [List.filter_append, List.filter_singleton, hown id rfl]
        rfl
      exact congrArg (fun outputs => History.mk ⟨_, outputs⟩ _ _ _ _ _ _ _) houtputs

end

theorem own_performs {k : Nat} (hid : id ∈ s.db.ids) :
    (s.performs i c st todo).own k id = s.own k id := by
  unfold Shared.own
  rw [performs_sessionOf fun _ heq => s.db.nextId_not_mem (heq ▸ hid)]

/-- The rows of a session do not change when another one performs a statement. -/
theorem view_other (h : Kept s) (hj : j ≠ i)
    (hsome : s.connections j = some { c with todo := st :: todo }) :
    (s.performs j c st todo).view i = s.view i := by
  have hsame : only s.db ((s.performs j c st todo).own i) = s.view i :=
    only_congr h.keyed fun id hid => own_performs hid
  rw [← hsame]
  refine only_perform_other (t := { c.t with db := s.db }) (fun id hid => ?_) fun hinserts => ?_
  · have hown := h.active j _ id hsome hid
    have hold : (s.performs j c st todo).own i id = s.own i id := own_performs (h.owned id j hown)
    rw [hold, Shared.own, hown]
    exact decide_eq_false fun heq => hj (Option.some.inj heq)
  · rw [Shared.own, performs_nextId hinserts]
    exact decide_eq_false fun heq => hj (Option.some.inj heq)

/-- The statement of a session does to its rows what it does to a store that has no others. -/
theorem view_own (h : Kept s) (hsome : s.connections i = some { c with todo := st :: todo }) :
    { perform { c.t with db := s.db } st with db := (s.performs i c st todo).view i } =
      performAt s.db.nextId { c.t with db := s.view i } st := by
  have hsame : only s.db ((s.performs i c st todo).own i) = s.view i :=
    only_congr h.keyed fun id hid => own_performs hid
  rw [← hsame]
  refine only_perform_own (t := { c.t with db := s.db }) (fun id hid => ?_) fun hinserts => ?_
  · have hown := h.active i _ id hsome hid
    rw [own_performs (h.owned id i hown), Shared.own, hown]
    exact decide_eq_true rfl
  · rw [Shared.own, performs_nextId hinserts]
    exact decide_eq_true rfl

/-! ## What the rows of a session hold -/

section
variable {before : Nat} {past : List Command} {cur : Option Command} {l : Log}

/-- A new row, with a key above those in use. -/
theorem holds_insertAt (h : Holds t before past cur l) (hid : ∀ id' ∈ t.db.ids, id' < id)
    (mode : Bytes) (lines : List UnicodeString) :
    Holds (insertAt id t mode lines) before (past ++ cur.toList)
      (some ⟨id, mode, promptToString lines, .running⟩)
      ⟨l.all, some ⟨promptToString lines, mode, []⟩⟩ := by
  have hnew : id ∉ t.db.ids := fun hmem => Nat.lt_irrefl id (hid id hmem)
  have hempty := h.keyed.rowsOf_nil hnew
  refine ⟨?_, ?_, ?_, ?_, ?_, ?_, rfl, ?_⟩
  · intro o ho
    rw [Db.ids, insertAt, List.map_append]
    exact List.mem_append_left _ (h.keyed o ho)
  · rw [insertAt, List.length_append]
    exact Nat.le_add_right_of_le h.before_le
  · rw [History.ofSession, insertAt, List.drop_append_of_le_length h.before_le]
    exact congrArg (· ++ _) h.rows
  · rw [Option.toList_some, List.map_append, List.pairwise_append]
    refine ⟨h.increasing, List.pairwise_singleton _ _, fun id₁ hid₁ id₂ hid₂ => ?_⟩
    rw [List.map_singleton, List.mem_singleton] at hid₂
    subst hid₂
    obtain ⟨c, hc, rfl⟩ := List.mem_map.mp hid₁
    rw [← h.rows] at hc
    exact hid _ (List.mem_map_of_mem (List.mem_of_mem_drop hc))
  · exact h.all.imp fun c it hc => hc.same rfl rfl rfl rfl
  · refine .some ⟨rfl, rfl, ?_, ?_⟩
    · exact congrArg (List.map _) hempty
    · show (t.db.rowsOf _).map Output.ordinal = List.range (t.db.rowsOf _).length
      rw [hempty]
      rfl
  · rintro _ ⟨⟩
    exact (congrArg List.length hempty).symm

theorem holds_note (h : Holds t before past cur l) (failed : Bool) :
    Holds (note t failed) before past cur l := by
  unfold note
  split
  · exact ⟨h.keyed, h.before_le, h.rows, h.increasing, h.stored, h.current, h.active, h.ordinal⟩
  · exact h

/-- What a statement does to the interactions of its session. -/
def performLog (l : Log) : Statement → Log
  | .finish status => l.operate (.finish status)
  | .insert mode lines => ⟨l.all, some ⟨promptToString lines, mode, []⟩⟩
  | .output _ kind text imagePath => l.operate (.output kind text imagePath)

theorem holds_performAt (h : Holds t before past cur l) (hid : ∀ id' ∈ t.db.ids, id' < id)
    (st : Statement) :
    ∃ past' cur', Holds (performAt id t st) before past' cur' (performLog l st) := by
  cases st with
  | finish status =>
    obtain ⟨past', h'⟩ := h.finish status
    exact ⟨past', none, h'⟩
  | insert mode lines => exact ⟨_, _, holds_insertAt h hid mode lines⟩
  | output failed kind text imagePath =>
    exact ⟨past, cur, (holds_note h failed).output kind text imagePath⟩

theorem holds_perform (h : Holds t before past cur l) (st : Statement) :
    ∃ past' cur', Holds (perform t st) before past' cur' (performLog l st) := by
  have hperform : performAt t.db.nextId t st = perform t st := by
    cases st <;> rfl
  exact hperform ▸ holds_performAt h (History.lt_nextId t.db) st

theorem holds_performs (h : Holds t before past cur l) (sts : List Statement) :
    ∃ past' cur', Holds (sts.foldl perform t) before past' cur' (sts.foldl performLog l) := by
  induction sts generalizing t past cur l with
  | nil => exact ⟨past, cur, h⟩
  | cons st sts ih =>
    obtain ⟨past', cur', h'⟩ := holds_perform h st
    exact ih h'

def callLog (l : Log) (c : Call) : Log := c.statements.foldl performLog l

/-- The interactions that the calls of a session make. -/
def logOf (calls : List Call) : Log := calls.foldl callLog ⟨[], none⟩

theorem holds_calls (h : Holds t before past cur l) (calls : List Call) :
    ∃ past' cur', Holds (calls.foldl Call.run t) before past' cur' (calls.foldl callLog l) := by
  induction calls generalizing t past cur l with
  | nil => exact ⟨past, cur, h⟩
  | cons c calls ih =>
    obtain ⟨past', cur', h'⟩ := holds_performs h c.statements
    rw [perform_statements] at h'
    exact ih h'

/-! ## Searching -/

/-- The keyword occurs in the input or in the text of an output. -/
def mentions (keyword : Bytes) (it : Mcp.Interaction) : Bool :=
  Like.like History.likeBytes (likePattern keyword) it.input ||
    it.outputs.any fun o => o.text.any (Like.like History.likeBytes (likePattern keyword))

def found (l : Log) (keyword : Bytes) (limit : Int) : List Mcp.Interaction :=
  let all := l.all.filter (mentions keyword)
  all.drop (all.length - limit.toNat)

theorem matchesKeyword_stored {db : Db} {c : Command} {it : Mcp.Interaction}
    (h : History.Stores db c it) (keyword : Bytes) :
    matchesKeyword db (likePattern keyword) c = mentions keyword it := by
  have hany : (db.outputs.any fun o => o.commandId = c.id &&
      o.text.any (Like.like History.likeBytes (likePattern keyword))) =
      it.outputs.any fun o => o.text.any (Like.like History.likeBytes (likePattern keyword)) := by
    rw [← h.outputs, List.any_map, Db.rowsOf, List.any_filter]
    rfl
  rw [matchesKeyword, mentions, hany, h.input]

theorem holds_searchInteractions (h : Holds t before past cur l) (keyword : Bytes) {limit : Int}
    (hlimit : 0 ≤ limit) :
    History.searchInteractions t before keyword limit = .ok (found l keyword limit) := by
  have hstored : ∀ c ∈ past ++ cur.toList, ∃ it, History.Stores t.db c it := by
    intro c hc
    obtain ⟨i, hi, rfl⟩ := List.getElem_of_mem hc
    exact ⟨_, (List.forall₂_iff_get.mp h.all).2 i hi (h.all.length_eq ▸ hi)⟩
  have hmap : (past ++ cur.toList).map (interaction t.db) = l.all := by
    refine List.ext_get (by rw [List.length_map]; exact h.all.length_eq) fun i hi hi' => ?_
    rw [List.get_eq_getElem, List.getElem_map]
    exact ((List.forall₂_iff_get.mp h.all).2 i (by rwa [List.length_map] at hi) hi').interaction_eq
  have hfilter : ((past ++ cur.toList).filter (matchesKeyword t.db (likePattern keyword))).map
      (interaction t.db) = l.all.filter (mentions keyword) := by
    rw [← hmap, List.filter_map]
    refine congrArg (List.map _) (List.filter_congr fun c hc => ?_)
    obtain ⟨it, hit⟩ := hstored c hc
    rw [matchesKeyword_stored hit]
    exact (congrArg (mentions keyword) hit.interaction_eq).symm
  have hincreasing : (((past ++ cur.toList).filter (matchesKeyword t.db (likePattern keyword))).map
      Command.id).Pairwise (· < ·) := h.increasing.sublist (List.filter_sublist.map Command.id)
  have hlength := congrArg List.length hfilter
  rw [List.length_map] at hlength
  rw [History.searchInteractions, if_neg (Int.not_lt.mpr hlimit), h.rows,
    History.newestRows_eq hincreasing, List.take_reverse, History.foldRows_eq, List.map_reverse,
    List.reverse_reverse, List.map_drop, hfilter, hlength]
  rfl

end

/-! ## Runs -/

/-- What a step adds to the interactions of its session and to the calls it has made. -/
def account (b : Log × List Call) : Action → Log × List Call
  | .opens => b
  | .calls c => (b.1, b.2 ++ [c])
  | .performs st => (performLog b.1 st, b.2)

/-- The rows of session `i` hold its interactions, and with the statements that are left these are
those of its calls. -/
def Tracks (i : Nat) (b : Log × List Call) (s : Shared) : Prop :=
  match s.connections i with
  | none => b = (⟨[], none⟩, []) ∧ ∀ id, s.sessionOf id ≠ some i
  | some c =>
    (∃ past cur, Holds { c.t with db := s.view i } 0 past cur b.1) ∧
      c.todo.foldl performLog b.1 = logOf b.2

theorem Tracks.of_connected {b : Log × List Call} (hc : s.connections i = some c)
    (hholds : ∃ past cur, Holds { c.t with db := s.view i } 0 past cur b.1)
    (htodo : c.todo.foldl performLog b.1 = logOf b.2) : Tracks i b s := by
  rw [Tracks, hc]
  exact ⟨hholds, htodo⟩

theorem Tracks.connected {b : Log × List Call} (h : Tracks i b s) (hc : s.connections i = some c) :
    (∃ past cur, Holds { c.t with db := s.view i } 0 past cur b.1) ∧
      c.todo.foldl performLog b.1 = logOf b.2 := by
  rw [Tracks, hc] at h
  exact h

theorem Tracks.unopened {b : Log × List Call} (h : Tracks i b s) (hc : s.connections i = none) :
    b = (⟨[], none⟩, []) ∧ ∀ id, s.sessionOf id ≠ some i := by
  rw [Tracks, hc] at h
  exact h

/-- Before its first command a session has no rows. -/
theorem view_empty (h : ∀ id, s.sessionOf id ≠ some i) : s.view i = ⟨[], []⟩ := by
  have hown : ∀ id, ¬ s.own i id = true := fun id hid => h id (of_decide_eq_true hid)
  have hcommands : s.db.commands.filter (fun c => s.own i c.id) = [] :=
    List.filter_eq_nil_iff.mpr fun c _ => hown c.id
  have houtputs : s.db.outputs.filter (fun o => s.own i o.commandId) = [] :=
    List.filter_eq_nil_iff.mpr fun o _ => hown o.commandId
  rw [Shared.view, only, hcommands, houtputs]

theorem holds_opened (t : History) (hactive : t.activeCommandId = none) :
    Holds { t with db := ⟨[], []⟩ } 0 [] none ⟨[], none⟩ where
  keyed _ ho := by cases ho
  before_le := Nat.le_refl 0
  rows := rfl
  increasing := .nil
  stored := .nil
  current := .none
  active := hactive
  ordinal _ hc := by cases hc

theorem view_ids_lt : ∀ id ∈ (s.view i).ids, id < s.db.nextId := by
  intro id hid
  obtain ⟨c, hc, rfl⟩ := List.mem_map.mp hid
  exact History.lt_nextId s.db _ (List.mem_map_of_mem (List.mem_of_mem_filter hc))

theorem Tracks.own {b : Log × List Call} (hkept : Kept s) (h : Tracks i b s)
    (hstep : Step s (i, a) s') : Tracks i (account b a) s' := by
  cases step_cases hstep with
  | opens hnone =>
    obtain ⟨rfl, hrows⟩ := h.unopened hnone
    refine .of_connected connect_self ⟨[], none, ?_⟩ rfl
    have hview : (s.connect i ⟨init s.db, [], false⟩).view i = ⟨[], []⟩ := view_empty hrows
    rw [hview]
    exact holds_opened (init s.db) rfl
  | @calls t c hsome =>
    obtain ⟨hholds, htodo⟩ := h.connected hsome
    refine .of_connected connect_self hholds ?_
    have hcalls : b.1 = logOf b.2 := htodo
    show c.statements.foldl performLog b.1 = (b.2 ++ [c]).foldl callLog ⟨[], none⟩
    rw [List.foldl_append, hcalls]
    rfl
  | @performs c st todo hsome =>
    obtain ⟨⟨past, cur, hholds⟩, htodo⟩ := h.connected hsome
    refine .of_connected performs_self ?_ htodo
    obtain ⟨past', cur', hholds'⟩ := holds_performAt hholds view_ids_lt st
    refine ⟨past', cur', ?_⟩
    rw [← @view_own s i c st todo hkept hsome] at hholds'
    exact hholds'

theorem Tracks.other {b : Log × List Call} (hj : j ≠ i) (hkept : Kept s) (h : Tracks i b s)
    (hstep : Step s (j, a) s') : Tracks i b s' := by
  cases step_cases hstep with
  | opens hnone =>
    unfold Tracks
    rw [connect_of_ne hj.symm]
    exact h
  | calls hsome =>
    unfold Tracks
    rw [connect_of_ne hj.symm]
    exact h
  | @performs c st todo hsome =>
    unfold Tracks at h ⊢
    rw [performs_of_ne hj.symm]
    cases hi : s.connections i with
    | none =>
      rw [hi] at h
      refine ⟨h.1, fun id hid => ?_⟩
      by_cases hnext : st.inserts = true ∧ id = s.db.nextId
      · rw [hnext.2, performs_nextId hnext.1] at hid
        exact hj (Option.some.inj hid)
      · rw [performs_sessionOf fun hinserts heq => hnext ⟨hinserts, heq⟩] at hid
        exact h.2 id hid
    | some c' =>
      rw [hi] at h
      dsimp only at h ⊢
      rw [view_other hkept hj hsome]
      exact h

/-- The calls that session `i` makes in a run. -/
def callsOf (i : Nat) (as : List (Nat × Action)) : List Call :=
  as.filterMap fun a =>
    match a.2 with
    | .calls c => if a.1 = i then some c else none
    | _ => none

theorem account_calls (b : Log × List Call) (as : List (Nat × Action)) :
    ((as.filterMap fun a => if a.1 = i then some a.2 else none).foldl account b).2 =
      b.2 ++ callsOf i as := by
  induction as generalizing b with
  | nil => exact (List.append_nil _).symm
  | cons a as ih =>
    obtain ⟨k, a⟩ := a
    rw [callsOf, List.filterMap_cons, List.filterMap_cons]
    by_cases hk : k = i
    · dsimp only
      rw [if_pos hk, List.foldl_cons, ih]
      cases a with
      | opens => rfl
      | calls c =>
        dsimp only
        rw [if_pos hk, account, List.append_assoc]
        rfl
      | performs st => rfl
    · dsimp only
      rw [if_neg hk]
      cases a with
      | opens => exact ih b
      | calls c =>
        dsimp only
        rw [if_neg hk]
        exact ih b
      | performs st => exact ih b

/-- In every run the rows of session `i` hold the interactions of its calls. -/
theorem run_tracks {db : Db} (hdb : db.Referential) {as : List (Nat × Action)}
    (hrun : Run Step (start db) as s) (hc : s.connections i = some c) (hidle : c.todo = []) :
    Kept s ∧ ∃ past cur, Holds { c.t with db := s.view i } 0 past cur (logOf (callsOf i as)) := by
  have hstart : Tracks i (⟨[], none⟩, []) (start db) := ⟨rfl, fun _ hid => by cases hid⟩
  obtain ⟨hkept, htracks⟩ := Run.isolated (f := account) (I := Kept) (V := Tracks i) i
    (fun h hstep => Kept.step h hstep)
    (fun hkept h hstep => Tracks.own hkept h hstep)
    (fun hj hkept h hstep => Tracks.other hj hkept h hstep) (kept_start hdb) hstart hrun
  obtain ⟨hholds, htodo⟩ := htracks.connected hc
  rw [account_calls, hidle] at htodo
  have hlog : (List.foldl account (⟨[], none⟩, []) _).1 = logOf (callsOf i as) := htodo
  rw [hlog] at hholds
  exact ⟨hkept, hholds⟩

/-! ## What a session reads -/

theorem rowsOf_view (h : s.own i id = true) : (s.view i).rowsOf id = s.db.rowsOf id := by
  show (s.db.outputs.filter _).filter _ = _
  rw [List.filter_filter]
  refine List.filter_congr fun o _ => ?_
  by_cases hid : o.commandId = id
  · rw [hid, h, Bool.and_true]
  · rw [decide_eq_false hid]
    rfl

theorem interaction_view {c : Command} (h : s.own i c.id = true) :
    interaction (s.view i) c = interaction s.db c := by
  unfold interaction History.outputsForCommand
  rw [rowsOf_view h]

theorem matchesKeyword_view {c : Command} (h : s.own i c.id = true) (pattern : Bytes) :
    matchesKeyword (s.view i) pattern c = matchesKeyword s.db pattern c := by
  have hany (db : Db) : (db.outputs.any fun o => o.commandId = c.id &&
      o.text.any (Like.like History.likeBytes pattern)) =
      (db.rowsOf c.id).any fun o => o.text.any (Like.like History.likeBytes pattern) := by
    rw [Db.rowsOf, List.any_filter]
  rw [matchesKeyword, matchesKeyword, hany, hany, rowsOf_view h]

theorem foldRows_view {limit : Int} {rows : List Command} (h : ∀ c ∈ rows, s.own i c.id = true) :
    foldRows (interaction s.db) (newestRows limit rows) =
      foldRows (interaction (s.view i)) (newestRows limit rows) := by
  rw [History.foldRows_eq, History.foldRows_eq]
  refine congrArg List.reverse (List.map_congr_left fun c hc => (interaction_view (h c ?_)).symm)
  exact (List.mem_insertionSort _).mp (List.mem_of_mem_take hc)

theorem recentInteractions_view (t : History) (limit : Int) : s.recentInteractions i limit =
    History.recentInteractions { t with db := s.view i } 0 limit := by
  unfold Shared.recentInteractions History.recentInteractions
  split
  · rfl
  · exact congrArg Except.ok (foldRows_view fun c hc => (List.mem_filter.mp hc).2)

theorem searchInteractions_view (t : History) (keyword : Bytes) (limit : Int) :
    s.searchInteractions i keyword limit =
      History.searchInteractions { t with db := s.view i } 0 keyword limit := by
  unfold Shared.searchInteractions History.searchInteractions
  split
  · rfl
  · refine congrArg Except.ok ?_
    rw [foldRows_view fun c hc => (List.mem_filter.mp (List.mem_of_mem_filter hc)).2]
    refine congrArg (fun rows => foldRows _ (newestRows limit rows)) ?_
    exact List.filter_congr fun c hc =>
      (matchesKeyword_view (List.mem_filter.mp hc).2 (likePattern keyword)).symm

/-- Whatever other sessions do to the file, and wherever their statements come between its own, a
session between two calls reads what it would read had it made its calls on a file of its own. -/
theorem sessions_isolated {db : Db} (hdb : db.Referential) {as : List (Nat × Action)}
    (hrun : Run Step (start db) as s) (hc : s.connections i = some c) (hidle : c.todo = [])
    (limit : Int) (keyword : Bytes) :
    let alone := (callsOf i as).foldl Call.run (init ⟨[], []⟩)
    s.recentInteractions i limit = History.recentInteractions alone 0 limit ∧
      s.searchInteractions i keyword limit =
        History.searchInteractions alone 0 keyword limit := by
  obtain ⟨-, past, cur, hholds⟩ := run_tracks hdb hrun hc hidle
  have halone : Holds (init ⟨[], []⟩) 0 [] none ⟨[], none⟩ :=
    History.holds_init fun _ ho => by cases ho
  obtain ⟨past', cur', halone⟩ := holds_calls halone (callsOf i as)
  rw [recentInteractions_view c.t, searchInteractions_view c.t]
  by_cases hlimit : limit < 0
  · exact ⟨(if_pos hlimit).trans (if_pos hlimit).symm, (if_pos hlimit).trans (if_pos hlimit).symm⟩
  · have hlimit := Int.not_lt.mp hlimit
    rw [hholds.recentInteractions hlimit, holds_searchInteractions hholds keyword hlimit]
    exact ⟨(halone.recentInteractions hlimit).symm,
      (holds_searchInteractions halone keyword hlimit).symm⟩

/-- Two sessions open an empty file; the row of the second is inserted while the first is between the
two statements of its own call. -/
def twoSessions : List (Nat × Action) :=
  let x := History.oneLetter "x"
  let y := History.oneLetter "y"
  [(0, .opens), (1, .opens), (0, .calls (.addToHistory (bytes "r") x)),
    (0, .performs (.finish .interrupted)), (1, .calls (.addToHistory (bytes "shell") y)),
    (1, .performs (.finish .interrupted)), (1, .performs (.insert (bytes "shell") y)),
    (0, .performs (.insert (bytes "r") x)), (1, .calls (.recordResponse (.stdout (bytes "x")))),
    (1, .performs (.output false (bytes "stdout") (some (bytes "x")) none)),
    (0, .calls (.recordResponse .done)), (0, .performs (.finish .done))]

/-- The second session finds its own command, whose output has the keyword, and not the first's. -/
theorem sessions_isolated_two : ∃ s c, Run Step (start ⟨[], []⟩) twoSessions s ∧
    s.connections 1 = some c ∧ s.db.ids = [1, 2] ∧
    s.searchInteractions 1 (bytes "x") 20 =
      .ok [⟨bytes "y", bytes "shell", [⟨some (bytes "x"), none⟩]⟩] := by
  obtain ⟨s, c, hrun, hc, hidle, hids, halone⟩ : ∃ s c,
      Run Step (start ⟨[], []⟩) twoSessions s ∧ s.connections 1 = some c ∧ c.todo = [] ∧
      s.db.ids = [1, 2] ∧
      History.searchInteractions ((callsOf 1 twoSessions).foldl Call.run (init ⟨[], []⟩)) 0
        (bytes "x") 20 = .ok [⟨bytes "y", bytes "shell", [⟨some (bytes "x"), none⟩]⟩] :=
    ⟨_, _, Transition.run_of_exec rfl, rfl, rfl, rfl, rfl⟩
  have hdb : Db.Referential ⟨[], []⟩ := fun _ ho => by cases ho
  exact ⟨s, c, hrun, hc, hids, (sessions_isolated hdb hrun hc hidle 20 (bytes "x")).2.trans halone⟩

/-! ## Rows that are running -/

/-- Only a session without an active command inserts one, and no command is set running again. -/
def guarded : Bool → List Statement → Bool
  | _, [] => true
  | _, .finish status :: sts => status ≠ .running && guarded true sts
  | idle, .insert _ _ :: sts => idle && guarded false sts
  | idle, .output _ _ _ _ :: sts => guarded idle sts

theorem guarded_statements (idle : Bool) (call : Call) : guarded idle call.statements = true := by
  cases call with
  | addToHistory mode lines =>
    show guarded idle (if isBlank lines then [] else _) = true
    split <;> rfl
  | recordResponse r => cases r <;> rfl
  | recordCancel => rfl
  | close => rfl

structure Ready (c : Connection) : Prop where
  guarded : guarded c.t.activeCommandId.isNone c.todo = true
  closing : c.closing = true →
    c.todo = [.finish .interrupted] ∨ c.todo = [] ∧ c.t.activeCommandId = none

/-- The running rows of a session are its active command. -/
structure Settled (s : Shared) : Prop where
  kept : Kept s
  ready : ∀ i c, s.connections i = some c → Ready c
  running : ∀ row ∈ s.db.commands, row.status = .running → ∀ i, s.sessionOf row.id = some i →
    ∃ c, s.connections i = some c ∧ c.t.activeCommandId = some row.id

theorem settled_start {db : Db} (h : db.Referential) : Settled (start db) where
  kept := kept_start h
  ready _ _ hc := by cases hc
  running _ _ _ _ hid := by cases hid

/-- A running row was running before and is not the one that is closed, unless it is the new one. -/
theorem perform_running {row : Command} (hst : ∀ status, st = .finish status → status ≠ .running)
    (h : row ∈ (perform t st).db.commands) (hrunning : row.status = .running) :
    st.inserts = true ∧ row.id = t.db.nextId ∨
      row ∈ t.db.commands ∧ ∀ status, st = .finish status → t.activeCommandId ≠ some row.id := by
  cases st with
  | finish status =>
    right
    have hmem : row ∈ (finishActive t status).db.commands := h
    unfold finishActive at hmem
    split at hmem
    · rename_i hnone
      refine ⟨hmem, fun _ _ heq => ?_⟩
      rw [hnone] at heq
      cases heq
    · rename_i id hid
      obtain ⟨c, hc, rfl⟩ := List.mem_map.mp hmem
      split at hrunning
      · have hclosed : (if t.activeCommandHadError then Status.error else status) = .running :=
          hrunning
        split at hclosed
        · cases hclosed
        · exact absurd hclosed (hst status rfl)
      · rename_i hne
        rw [if_neg hne]
        exact ⟨hc, fun _ _ heq => hne (Option.some.inj (heq.symm.trans hid))⟩
  | insert mode lines =>
    obtain hold | hnew := List.mem_append.mp h
    · exact .inr ⟨hold, fun _ heq => by cases heq⟩
    · rw [List.mem_singleton] at hnew
      exact .inl ⟨rfl, congrArg Command.id hnew⟩
  | output failed kind text imagePath =>
    refine .inr ⟨?_, fun _ heq => by cases heq⟩
    have hcommands := (History.recordOutput_frame (note t failed) kind text imagePath).2.2
    rw [note_db] at hcommands
    exact hcommands ▸ h

/-- What is left of a call after its first statement. -/
theorem Ready.perform {c : Connection} {st : Statement} {todo : List Statement} {t : History}
    (h : Ready { c with todo := st :: todo }) (ht : t.activeCommandId = c.t.activeCommandId) :
    Ready ⟨perform t st, todo, c.closing⟩ := by
  obtain ⟨hguarded, hclosing⟩ := h
  refine ⟨?_, fun hc => ?_⟩
  · cases st with
    | finish status =>
      rw [SharedHistory.guarded, Bool.and_eq_true] at hguarded
      show SharedHistory.guarded (finishActive t status).activeCommandId.isNone todo = true
      rw [History.finishActive_active]
      exact hguarded.2
    | insert mode lines =>
      rw [SharedHistory.guarded, Bool.and_eq_true] at hguarded
      exact hguarded.2
    | output failed kind text imagePath =>
      show SharedHistory.guarded (recordOutput (note t failed) kind text imagePath).activeCommandId.isNone
        todo = true
      rw [(History.recordOutput_frame ..).1, note_active, ht]
      exact hguarded
  · obtain hlast | ⟨hnone, -⟩ := hclosing hc
    · cases hlast
      exact .inr ⟨rfl, History.finishActive_active _ _⟩
    · cases hnone

theorem Settled.step (h : Settled s) (hstep : Step s (i, a) s') : Settled s' := by
  have hkept := h.kept.step hstep
  cases step_cases hstep with
  | opens hnone =>
    refine ⟨hkept, fun j c hc => ?_, fun row hrow hrunning j hj => ?_⟩
    · by_cases hj : j = i
      · subst hj
        rw [connect_self] at hc
        cases hc
        exact ⟨rfl, fun hc => by cases hc⟩
      · rw [connect_of_ne hj] at hc
        exact h.ready j c hc
    · obtain ⟨c, hc, hactive⟩ := h.running row hrow hrunning j hj
      have hne : j ≠ i := by
        rintro rfl
        cases hnone.symm.trans hc
      exact ⟨c, (connect_of_ne hne).trans hc, hactive⟩
  | @calls t call hsome =>
    refine ⟨hkept, fun j c hc => ?_, fun row hrow hrunning j hj => ?_⟩
    · by_cases hj : j = i
      · subst hj
        rw [connect_self] at hc
        cases hc
        refine ⟨guarded_statements _ call, fun hclose => ?_⟩
        rw [of_decide_eq_true hclose]
        exact .inl rfl
      · rw [connect_of_ne hj] at hc
        exact h.ready j c hc
    · obtain ⟨c, hc, hactive⟩ := h.running row hrow hrunning j hj
      by_cases hne : j = i
      · subst hne
        cases hsome.symm.trans hc
        exact ⟨_, connect_self, hactive⟩
      · exact ⟨c, (connect_of_ne hne).trans hc, hactive⟩
  | @performs c st todo hsome =>
    have hready := h.ready i _ hsome
    refine ⟨hkept, fun j c' hc' => ?_, fun row hrow hrunning j hj => ?_⟩
    · by_cases hj : j = i
      · subst hj
        rw [performs_self] at hc'
        cases hc'
        exact hready.perform rfl
      · rw [performs_of_ne hj] at hc'
        exact h.ready j c' hc'
    · have hst : ∀ status, st = .finish status → status ≠ .running := by
        rintro status rfl
        have hguarded := hready.guarded
        rw [SharedHistory.guarded, Bool.and_eq_true, decide_eq_true_eq] at hguarded
        exact hguarded.1
      obtain ⟨hinserts, hnew⟩ | ⟨hold, hopen⟩ := perform_running hst hrow hrunning
      · have hid : row.id = s.db.nextId := hnew
        rw [hid, performs_nextId hinserts] at hj
        cases hj
        refine ⟨_, performs_self, ?_⟩
        cases st with
        | insert mode lines => exact congrArg some hid.symm
        | finish status => cases hinserts
        | output failed kind text imagePath => cases hinserts
      · have hmem : row.id ∈ s.db.ids := List.mem_map_of_mem hold
        rw [performs_sessionOf fun _ heq => s.db.nextId_not_mem (heq ▸ hmem)] at hj
        obtain ⟨c', hc', hactive⟩ := h.running row hold hrunning j hj
        by_cases hne : j = i
        · subst hne
          cases hsome.symm.trans hc'
          refine ⟨_, performs_self, ?_⟩
          cases st with
          | finish status => exact absurd hactive (hopen status rfl)
          | insert mode lines =>
            have hguarded := hready.guarded
            rw [SharedHistory.guarded, Bool.and_eq_true, hactive] at hguarded
            cases hguarded.1
          | output failed kind text imagePath =>
            show (recordOutput (note _ failed) kind text imagePath).activeCommandId = _
            rw [(History.recordOutput_frame ..).1, note_active]
            exact hactive
        · exact ⟨c', (performs_of_ne hne).trans hc', hactive⟩

/-- In every reachable state a row that is running is the active command of its session, so that no
session has two of them; a session that has closed has none. -/
theorem running_active {db : Db} (hdb : db.Referential) {as : List (Nat × Action)}
    (hrun : Run Step (start db) as s) {row : Command} (hrow : row ∈ s.db.commands)
    (hrunning : row.status = .running) (hi : s.sessionOf row.id = some i) :
    ∃ c, s.connections i = some c ∧ c.t.activeCommandId = some row.id ∧
      (c.closing = true → c.todo = [.finish .interrupted]) := by
  have hsettled := Run.invariant (I := Settled) (fun h hstep => Settled.step h hstep)
    (settled_start hdb) hrun
  obtain ⟨c, hc, hactive⟩ := hsettled.running row hrow hrunning i hi
  refine ⟨c, hc, hactive, fun hclosing => ?_⟩
  obtain hlast | ⟨-, hnone⟩ := (hsettled.ready i c hc).closing hclosing
  · exact hlast
  · cases hnone.symm.trans hactive

/-- The second session's row is running, and it has closed all of its own. -/
theorem running_active_two : ∃ s row c, Run Step (start ⟨[], []⟩) twoSessions s ∧
    row ∈ s.db.commands ∧ row.input = bytes "y" ∧ s.connections 1 = some c ∧
    c.t.activeCommandId = some row.id := by
  obtain ⟨s, row, hrun, hrow, hinput, hrunning, hi⟩ : ∃ s row,
      Run Step (start ⟨[], []⟩) twoSessions s ∧ row ∈ s.db.commands ∧ row.input = bytes "y" ∧
      row.status = .running ∧ s.sessionOf row.id = some 1 :=
    ⟨_, _, Transition.run_of_exec rfl, List.mem_cons_self, rfl, rfl, rfl⟩
  have hdb : Db.Referential ⟨[], []⟩ := fun _ ho => by cases ho
  obtain ⟨c, hc, hactive, -⟩ := running_active hdb hrun hrow hrunning hi
  exact ⟨s, row, c, hrun, hrow, hinput, hc, hactive⟩

/-! ## Recall -/

def entry (c : Command) : History.Entry := ⟨c.mode, c.input⟩

def Statement.entries : Statement → List History.Entry
  | .insert mode lines => [⟨mode, promptToString lines⟩]
  | .finish _ | .output _ _ _ _ => []

def Action.entries : Action → List History.Entry
  | .performs st => st.entries
  | .opens | .calls _ => []

/-- What is inserted in a run, by all sessions. -/
def inserted (as : List (Nat × Action)) : List History.Entry := as.flatMap fun a => a.2.entries

def insertedBy (i : Nat) (as : List (Nat × Action)) : List History.Entry :=
  as.flatMap fun a => if a.1 = i then a.2.entries else []

def recallable (e : History.Entry) : Bool :=
  e.entryMode = bytes "r" || e.entryMode = bytes "shell" || e.entryMode = bytes "ai"

/-- The newest entries that a session can recall. -/
def newestEntries (entries : List History.Entry) : List History.Entry :=
  let entries := entries.filter recallable
  entries.drop (entries.length - 5000)

theorem init_history (db : Db) : (init db).history = newestEntries (db.commands.map entry) := by
  have hfilter : (db.commands.filter fun c => c.mode = bytes "r" || c.mode = bytes "shell" ||
      c.mode = bytes "ai") = db.commands.filter (recallable ∘ entry) := rfl
  unfold newestEntries init
  dsimp only
  rw [hfilter, List.filter_map, List.length_map, List.map_drop]
  exact congrArg (List.drop _) rfl

theorem perform_entries (t : History) (st : Statement) :
    (perform t st).db.commands.map entry = t.db.commands.map entry ++ st.entries ∧
      (perform t st).history = t.history ++ st.entries := by
  cases st with
  | finish status =>
    refine ⟨Eq.trans ?_ (List.append_nil _).symm, Eq.trans ?_ (List.append_nil _).symm⟩
    · show (finishActive t status).db.commands.map entry = _
      unfold finishActive
      split
      · rfl
      · refine (List.map_map ..).trans (List.map_congr_left fun c _ => ?_)
        show entry (if _ then _ else _) = entry c
        split <;> rfl
    · show (finishActive t status).history = t.history
      unfold finishActive
      split <;> rfl
  | insert mode lines => exact ⟨List.map_append, rfl⟩
  | output failed kind text imagePath =>
    refine ⟨Eq.trans ?_ (List.append_nil _).symm, Eq.trans ?_ (List.append_nil _).symm⟩
    · show (recordOutput (note t failed) kind text imagePath).db.commands.map entry = _
      rw [(History.recordOutput_frame ..).2.2, note_db]
    · show (recordOutput (note t failed) kind text imagePath).history = t.history
      unfold recordOutput note
      split <;> split <;> rfl

/-- The table lists what has been inserted, with the keys in the order of insertion. -/
theorem step_entries (h : (s.db.ids).Pairwise (· < ·)) (hstep : Step s (i, a) s') :
    s'.db.commands.map entry = s.db.commands.map entry ++ a.entries ∧
      (s'.db.ids).Pairwise (· < ·) := by
  cases step_cases hstep with
  | opens _ => exact ⟨(List.append_nil _).symm, h⟩
  | calls _ => exact ⟨(List.append_nil _).symm, h⟩
  | @performs c st todo _ =>
    refine ⟨(perform_entries { c.t with db := s.db } st).1, ?_⟩
    show ((perform { c.t with db := s.db } st).db.ids).Pairwise (· < ·)
    rw [perform_ids, List.pairwise_append]
    refine ⟨h, ?_, fun id hid id' hid' => ?_⟩
    · split
      · exact List.pairwise_singleton _ _
      · exact .nil
    · split at hid'
      · rw [List.mem_singleton.mp hid']
        exact History.lt_nextId s.db id hid
      · cases hid'

theorem run_entries {as : List (Nat × Action)} (h : (s.db.ids).Pairwise (· < ·))
    (hrun : Run Step s as s') :
    s'.db.commands.map entry = s.db.commands.map entry ++ inserted as ∧
      (s'.db.ids).Pairwise (· < ·) := by
  induction hrun with
  | nil => exact ⟨(List.append_nil _).symm, h⟩
  | @cons s s₁ s' a as hstep _ ih =>
    obtain ⟨hentries, hids⟩ := step_entries (i := a.1) (a := a.2) h hstep
    obtain ⟨hentries', hids'⟩ := ih hids
    rw [hentries, List.append_assoc] at hentries'
    exact ⟨hentries', hids'⟩

theorem step_history (hc : s.connections i = some c) (hstep : Step s (j, a) s') :
    ∃ c', s'.connections i = some c' ∧
      c'.t.history = c.t.history ++ if j = i then a.entries else [] := by
  by_cases hj : j = i
  · subst hj
    rw [if_pos rfl]
    cases step_cases hstep with
    | opens hnone => cases hnone.symm.trans hc
    | calls hsome =>
      cases hsome.symm.trans hc
      exact ⟨_, connect_self, (List.append_nil _).symm⟩
    | performs hsome =>
      cases hsome.symm.trans hc
      exact ⟨_, performs_self, (perform_entries _ _).2⟩
  · rw [if_neg hj]
    refine ⟨c, ?_, (List.append_nil _).symm⟩
    cases step_cases hstep with
    | opens _ => exact (connect_of_ne (Ne.symm hj)).trans hc
    | calls _ => exact (connect_of_ne (Ne.symm hj)).trans hc
    | performs _ => exact (performs_of_ne (Ne.symm hj)).trans hc

theorem run_history {as : List (Nat × Action)} (hc : s.connections i = some c)
    (hrun : Run Step s as s') :
    ∃ c', s'.connections i = some c' ∧ c'.t.history = c.t.history ++ insertedBy i as := by
  induction hrun generalizing c with
  | nil => exact ⟨c, hc, (List.append_nil _).symm⟩
  | @cons s s₁ s' a as hstep _ ih =>
    obtain ⟨c₁, hc₁, hhistory⟩ := step_history (j := a.1) (a := a.2) hc hstep
    obtain ⟨c', hc', hhistory'⟩ := ih hc₁
    rw [hhistory, List.append_assoc] at hhistory'
    exact ⟨c', hc', hhistory'⟩

/-- A session can recall the newest commands of the file, in the order in which the sessions have
inserted them up to its start, and after them its own. -/
theorem recall_newest {db : Db} (hids : (db.ids).Pairwise (· < ·)) {as bs : List (Nat × Action)}
    (hrun : Run Step (start db) (as ++ (i, .opens) :: bs) s) :
    (s.db.ids).Pairwise (· < ·) ∧
    ∃ c, s.connections i = some c ∧ c.t.history =
      newestEntries (db.commands.map entry ++ inserted as) ++ insertedBy i bs := by
  refine ⟨(run_entries (s := start db) hids hrun).2, ?_⟩
  obtain ⟨s₁, hbefore, hafter⟩ := hrun.split
  obtain ⟨hentries, -⟩ := run_entries (s := start db) hids hbefore
  cases hafter with
  | cons hopens hafter =>
    cases step_cases hopens with
    | opens hnone =>
      obtain ⟨c, hc, hhistory⟩ := run_history connect_self hafter
      refine ⟨c, hc, hhistory.trans (congrArg (· ++ insertedBy i bs) ?_)⟩
      rw [init_history, hentries]
      rfl

/-- A third session, which recalls the commands of the two. -/
theorem recall_newest_third : ∃ s c, Run Step (start ⟨[], []⟩) (twoSessions ++ [(2, .opens)]) s ∧
    s.connections 2 = some c ∧
    c.t.history = [⟨bytes "shell", bytes "y"⟩, ⟨bytes "r", bytes "x"⟩] := by
  obtain ⟨s, hrun⟩ : ∃ s, Run Step (start ⟨[], []⟩) (twoSessions ++ [(2, .opens)]) s :=
    ⟨_, Transition.run_of_exec rfl⟩
  have hids : (Db.ids ⟨[], []⟩).Pairwise (· < ·) := .nil
  obtain ⟨-, c, hc, hhistory⟩ := recall_newest hids hrun
  exact ⟨s, c, hrun, hc, hhistory.trans (by decide +kernel)⟩

end SharedHistory
end Raoui
