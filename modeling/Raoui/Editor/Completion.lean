import Raoui.Text.UnicodeString

/-!
# Raoui.Editor.Completion

`lib/backslash_command.ml` and `lib/completion.ml`: the backslash commands and the state of the
completion dropdown.
-/

namespace Raoui

namespace Backslash

inductive EffectfulCommand where
  | pickFile
  | pickFileFzf
  deriving DecidableEq, Repr

inductive Command where
  | simple (name insertedText : Bytes)
  | effectful (name : Bytes) (action : EffectfulCommand)
  deriving DecidableEq, Repr

structure Token where
  tokenStart : Int
  typedText : Bytes
  commandNamePrefix : Bytes
  deriving DecidableEq, Repr

def defaultRegistry : List Command :=
  [.simple (bytes "pi") (bytes "π"),
    .simple (bytes "alpha") (bytes "α"),
    .simple (bytes "beta") (bytes "β"),
    .simple (bytes "gamma") (bytes "γ"),
    .simple (bytes "delta") (bytes "δ"),
    .simple (bytes "epsilon") (bytes "ε"),
    .simple (bytes "theta") (bytes "θ"),
    .simple (bytes "lambda") (bytes "λ"),
    .simple (bytes "mu") (bytes "μ"),
    .simple (bytes "sigma") (bytes "σ"),
    .simple (bytes "phi") (bytes "φ"),
    .simple (bytes "psi") (bytes "ψ"),
    .simple (bytes "omega") (bytes "ω"),
    .effectful (bytes "file") .pickFile,
    .effectful (bytes "fzf") .pickFileFzf]

def Command.name : Command → Bytes
  | .simple name _ => name
  | .effectful name _ => name

def Command.label (c : Command) : Bytes := bytes "\\" ++ c.name

def findByLabel (registry : List Command) (needle : Bytes) : Option Command :=
  registry.find? fun c => c.label = needle

def isCommandChar (s : Bytes) : Bool :=
  match s with
  | [c] => (97 ≤ c && c ≤ 122) || (65 ≤ c && c ≤ 90) || (48 ≤ c && c ≤ 57) || c = 95 || c = 45
  | _ => false

def isTokenBoundary (s : Bytes) : Bool := !(s = bytes "\\" || isCommandChar s)

/-- `consume_name` over the first `n` clusters: the last that is no command character, or -1. -/
def consumeName (line : UnicodeString) : Nat → Res Int
  | 0 => return -1
  | n + 1 => do
    let cluster ← line.clusterAt n
    if isCommandChar cluster then consumeName line n else return n

/-- The command characters left of the cursor, and the backslash before them. -/
def scanBackslashToken (line : UnicodeString) (cursorPos : Int) : Res (Option (Int × Bytes)) :=
  if cursorPos ≤ 0 ∨ cursorPos > line.length then return none
  else do
    let backslashIdx ← consumeName line cursorPos.toNat
    if backslashIdx < 0 then return none
    else if (← line.clusterAt backslashIdx) ≠ bytes "\\" then return none
    else
      let validBoundary : Res Bool :=
        if backslashIdx = 0 then .ok true
        else (line.clusterAt (backslashIdx - 1)).map isTokenBoundary
      if !(← validBoundary) then return none
      else
        let typedText := (line.sub backslashIdx (cursorPos - backslashIdx)).toBytes
        if typedText.length ≤ 1 ∨ typedText = bytes "\\\\" then return none
        else return some (backslashIdx, typedText)

def tokenInLine (line : UnicodeString) (cursorPos : Int) : Res (Option Token) := do
  let found ← scanBackslashToken line cursorPos
  return found.map fun (backslashIdx, typedText) => ⟨backslashIdx, typedText, typedText.drop 1⟩

def exactCommandBeforeCursor (registry : List Command) (line : UnicodeString) (cursorPos : Int) :
    Res (Option (Int × Command)) := do
  let found ← scanBackslashToken line cursorPos
  return found.bind fun (backslashIdx, typedText) =>
    (findByLabel registry typedText).map fun command => (backslashIdx, command)

def matchingCommands (registry : List Command) (typed : Bytes) : List Command :=
  registry.filter fun command => typed.isPrefixOf command.name

end Backslash

inductive Completion.ItemKind where
  | backend
  | backslash (command : Backslash.Command)
  deriving DecidableEq, Repr

structure Completion.Item where
  label : Bytes
  kind : Completion.ItemKind
  deriving DecidableEq, Repr

structure Completion where
  items : List Completion.Item
  /-- The items that start with what has been typed. -/
  filtered : List Completion.Item
  selected : Option Int
  /-- Set once the user cycles with Tab. -/
  explicitSelection : Bool
  tokenStart : Int
  originalToken : Bytes
  deriving DecidableEq, Repr

namespace Completion

def maxVisibleRows : Int := 4

def backendItem (label : Bytes) : Item := ⟨label, .backend⟩

def backslashItem (command : Backslash.Command) : Item := ⟨command.label, .backslash command⟩

def create (tokenStart : Int) (items : List Item) : Completion :=
  { items, filtered := items, selected := none, explicitSelection := false, tokenStart,
    originalToken := [] }

def inferSelectedIndex (filtered : List Item) (typed : Bytes) : Option Int :=
  (filtered.findIdx? fun item => item.label = typed).map Int.ofNat

def filter (t : Completion) (typed : Bytes) : Option Completion :=
  let filtered := t.items.filter fun item => typed.isPrefixOf item.label
  if filtered = [] then none
  else
    let selected :=
      if t.explicitSelection then t.selected.map fun i => min i ((filtered.length : Int) - 1)
      else inferSelectedIndex filtered typed
    some { t with filtered, selected }

def cycleNext (t : Completion) : Completion :=
  if t.filtered.length = 0 then t
  else
    let newSelected : Int :=
      match t.selected with
      | none => 0
      | some idx => Int.tmod (idx + 1) t.filtered.length
    { t with selected := some newSelected, explicitSelection := true }

def currentCompletion (t : Completion) : Option Item :=
  match t.selected with
  | some idx => if idx ≥ 0 ∧ idx < t.filtered.length then t.filtered[idx.toNat]? else none
  | none => none

def isInCompletionMode (t : Completion) : Bool := t.explicitSelection

def saveOriginalToken (t : Completion) (token : Bytes) : Completion :=
  { t with originalToken := token }

def dropdownSize (t : Completion) : Int := min maxVisibleRows t.filtered.length

def visibleWindowStart (t : Completion) : Int :=
  let len : Int := t.filtered.length
  match t.selected with
  | none => 0
  | some idx =>
    if len ≤ maxVisibleRows then 0
    else max 0 (min (idx - (maxVisibleRows - 2)) (len - maxVisibleRows))

def visibleItems (t : Completion) : List Item :=
  (t.filtered.drop t.visibleWindowStart.toNat).take maxVisibleRows.toNat

def selectedIndexInWindow (t : Completion) : Option Int :=
  match t.selected with
  | none => none
  | some selected =>
    let idx := selected - t.visibleWindowStart
    if idx < 0 ∨ idx ≥ t.dropdownSize then none else some idx

end Completion
end Raoui
