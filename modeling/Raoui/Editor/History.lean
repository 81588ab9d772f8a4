import Raoui.Ffi.Backend
import Raoui.Text.UnicodeString

/-!
# Raoui.Editor.History

`lib/history.ml`. The record is mutable in the source; here a function returns the new one. The
database is the rows of its two tables, oldest first, without times and the session.
-/

namespace Raoui
namespace History

open Ffi (ResponseChunk)

inductive Status where
  | running
  | done
  | error
  | interrupted
  deriving DecidableEq, Repr

/-- A row of `commands`. -/
structure Command where
  id : Nat
  mode : Bytes
  input : Bytes
  status : Status
  deriving DecidableEq, Repr

/-- A row of `outputs`. -/
structure Output where
  commandId : Nat
  ordinal : Nat
  kind : Bytes
  text : Option Bytes
  imagePath : Option Bytes
  deriving DecidableEq, Repr

structure Db where
  commands : List Command
  outputs : List Output
  deriving DecidableEq, Repr

/-- One recallable history item. -/
structure Entry where
  entryMode : Bytes
  entryText : Bytes
  deriving DecidableEq, Repr

end History

/-- The record `t` of `history.ml`, its entries oldest first. -/
structure History where
  db : History.Db
  history : List History.Entry
  currentIndex : Nat
  savedPrompt : Option (Bytes × List UnicodeString)
  searchNeedle : Option (List UnicodeString)
  activeCommandId : Option Nat
  activeCommandHadError : Bool
  activeOutputOrdinal : Nat
  deriving DecidableEq, Repr

namespace History

open Ffi (ResponseChunk)

def resultGetOk : Exn := .invalidArgument (bytes "result is Error _")

/-- `prompt_to_string`, which is also how a command is stored. -/
def promptToString (p : List UnicodeString) : Bytes :=
  concatWith [newline] (p.map UnicodeString.toBytes)

def matchesPrompt (prompt : Option (List UnicodeString)) (entry : Bytes) : Bool :=
  match prompt with
  | none => true
  | some needle => containsSubstring (promptToString needle) entry

/-! ## Navigation -/

def nthNewest (t : History) (i : Nat) : Res Entry :=
  match t.history.reverse[i]? with
  | some e => .ok e
  | none => .error (.invalidArgument (bytes "index out of bounds"))

def promptMatchesEntry (t : History) (prompt : List UnicodeString) (idx : Nat) : Res Bool :=
  if idx > 0 ∧ idx - 1 < t.history.length then do
    let entry ← nthNewest t (idx - 1)
    return promptToString prompt = entry.entryText
  else return false

def updateSearchNeedle (t : History) (currentPrompt : List UnicodeString) : Res History := do
  if ← promptMatchesEntry t currentPrompt t.currentIndex then return t
  else return { t with searchNeedle := some currentPrompt }

def isDuplicateOfPrevious (t : History) (idx : Nat) : Res Bool :=
  if idx > 0 then do
    let entry ← nthNewest t idx
    let newer ← nthNewest t (idx - 1)
    return entry = newer
  else return false

section
variable [Ucd]

/-- A line of a stored text, which `Result.get_ok` takes to be readable. -/
def toLine (s : Bytes) : Res UnicodeString :=
  match UnicodeString.ofString s with
  | .ok u => .ok u
  | .error _ => .error resultGetOk

/-- `to_us`. -/
def toUs (s : Bytes) : Res (List UnicodeString) := (splitOnChar newline s).mapM toLine

/-- `go_back` from `current_index` on, after the prompt has been looked at; `fuel` is the number of
older entries. -/
def goBackFrom : Nat → History → Res (Option (Bytes × List UnicodeString) × History)
  | 0, t => return (none, t)
  | fuel + 1, t => do
    let idx := t.currentIndex
    let t := { t with currentIndex := idx + 1 }
    if ← isDuplicateOfPrevious t idx then goBackFrom fuel t
    else
      let entry ← nthNewest t idx
      if matchesPrompt t.searchNeedle entry.entryText then
        return (some (entry.entryMode, ← toUs entry.entryText), t)
      else goBackFrom fuel t

def goBack (t : History) (currentPrompt : Bytes × List UnicodeString) :
    Res (Option (Bytes × List UnicodeString) × History) := do
  let t := if t.currentIndex = 0 then { t with savedPrompt := some currentPrompt } else t
  let t ← updateSearchNeedle t currentPrompt.2
  goBackFrom (t.history.length - t.currentIndex) t

/-- `go_forwards` from the index on; each round is one entry newer. -/
def goForwardsFrom : Nat → History → Res (Option (Bytes × List UnicodeString) × History)
  | 0, t => return (none, t)
  | idx + 1, t => do
    let t := { t with currentIndex := idx }
    match idx with
    | 0 => return (t.savedPrompt, t)
    | idx' + 1 =>
      if ← isDuplicateOfPrevious t idx' then goForwardsFrom idx t
      else
        let entry ← nthNewest t idx'
        if matchesPrompt t.searchNeedle entry.entryText then
          return (some (entry.entryMode, ← toUs entry.entryText), t)
        else goForwardsFrom idx t

def goForwards (t : History) (currentPrompt : Bytes × List UnicodeString) :
    Res (Option (Bytes × List UnicodeString) × History) := do
  let t ← updateSearchNeedle t currentPrompt.2
  goForwardsFrom t.currentIndex t

end

/-- The loop of `search_matches`, newest entry first; `seen` is what has been found already. -/
def searchFrom (needle : Bytes) : Nat → List (Bytes × Bytes) → List Entry → List (Bytes × Bytes)
  | _, _, [] => []
  | 0, _, _ => []
  | limit + 1, seen, entry :: older =>
    let key := (entry.entryMode, entry.entryText)
    if !seen.contains key && containsSubstring needle (lowercaseAscii entry.entryText) then
      key :: searchFrom needle limit (key :: seen) older
    else searchFrom needle (limit + 1) seen older

def searchMatches (t : History) (needle : Bytes) (limit : Nat) : List (Bytes × Bytes) :=
  searchFrom (lowercaseAscii needle) limit [] t.history.reverse

/-! ## Recording -/

/-- `UPDATE commands SET status = ? WHERE id = ?`. -/
def Db.setStatus (db : Db) (id : Nat) (status : Status) : Db :=
  { db with commands := db.commands.map fun c => if c.id = id then { c with status } else c }

/-- The key SQLite gives a new row: one more than the greatest in use. -/
def Db.nextId (db : Db) : Nat := (db.commands.map Command.id).foldr max 0 + 1

def finishActive (t : History) (status : Status) : History :=
  match t.activeCommandId with
  | none => t
  | some id =>
    let status := if t.activeCommandHadError then .error else status
    { t with
      db := t.db.setStatus id status
      activeCommandId := none
      activeCommandHadError := false
      activeOutputOrdinal := 0 }

def addToHistory (t : History) (mode : Bytes) (lines : List UnicodeString) : History :=
  let command := promptToString lines
  if trim command = [] then t
  else
    let t := finishActive t .interrupted
    let id := t.db.nextId
    { t with
      currentIndex := 0
      savedPrompt := none
      searchNeedle := none
      history := t.history ++ [⟨mode, command⟩]
      db := { t.db with commands := t.db.commands ++ [⟨id, mode, command, .running⟩] }
      activeCommandId := some id
      activeCommandHadError := false
      activeOutputOrdinal := 0 }

/-- What is stored of a response: kind, text and image path. -/
def responseOutput : ResponseChunk → Option (Bytes × Option Bytes × Option Bytes)
  | .stdout text => some (bytes "stdout", some text, none)
  | .result text => some (bytes "result", some text, none)
  | .rError text => some (bytes "error", some text, none)
  | .internalError text => some (bytes "internal_error", some text, none)
  | .restarted text => some (bytes "restarted", some text, none)
  | .image image => some (bytes "image", none, some image.previewPath)
  | .done | .shutdown | .passthrough | .passthroughEnd | .completions _ _ | .readline _
  | .aiOutput _ | .aiToolCall _ | .aiSuggestion _ | .aiDone => none

def recordOutput (t : History) (kind : Bytes) (text imagePath : Option Bytes) : History :=
  match t.activeCommandId with
  | none => t
  | some commandId =>
    let ordinal := t.activeOutputOrdinal
    { t with
      activeOutputOrdinal := ordinal + 1
      db := { t.db with outputs := t.db.outputs ++ [⟨commandId, ordinal, kind, text, imagePath⟩] } }

def recordResponse (t : History) (response : ResponseChunk) : History :=
  let t :=
    match responseOutput response with
    | none => t
    | some (kind, text, imagePath) =>
      let t :=
        if kind = bytes "error" ∨ kind = bytes "internal_error" then
          { t with activeCommandHadError := true }
        else t
      recordOutput t kind text imagePath
  match response with
  | .done => finishActive t .done
  | .internalError _ | .restarted _ => finishActive t .error
  | .shutdown => finishActive t .interrupted
  | _ => t

def recordCancel (t : History) : History := finishActive t .interrupted

/-- What `init` gives, from the rows already stored; the entries are the last `max_history`. -/
def init (db : Db) : History :=
  let recallable := db.commands.filter fun c =>
    c.mode = bytes "r" || c.mode = bytes "shell" || c.mode = bytes "ai"
  { db, history := (recallable.drop (recallable.length - 5000)).map fun c => ⟨c.mode, c.input⟩,
    currentIndex := 0, savedPrompt := none, searchNeedle := none, activeCommandId := none,
    activeCommandHadError := false, activeOutputOrdinal := 0 }

end History
end Raoui
