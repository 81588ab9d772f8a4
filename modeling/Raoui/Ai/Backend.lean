import Raoui.Ffi.Backend

/-!
# Raoui.Ai.Backend

`lib/ai_backend.ml`: one `claude -p` subprocess for each query, its output turned into response
chunks, and the session flags the next query is spawned with. The JSON parser (`Yojson.Safe`) is a
parameter. The sixteen bytes a session id is made from are an argument of what draws it.
-/

namespace Raoui
namespace Ai

open Raoui.Ffi (ResponseChunk decimal decimalInt)

def systemPrompt : Bytes :=
  bytes "You are an assistant embedded in raoui, an interactive R REPL. The user " ++
  bytes "asks about their R session, output, and data analysis. Answer concisely and " ++
  bytes "practically. Use the get_history tool to see the user's recent commands and " ++
  bytes "output when that context would help, or the search_history tool to find " ++
  bytes "past commands and output matching a keyword. Use the run_r tool to evaluate " ++
  bytes "R against the user's live session in a read-only sandbox (changes do not " ++
  bytes "persist) to inspect data or compute. For code meant to change the session " ++
  bytes "(assignments to keep, writing files, plotting), do not run it — call " ++
  bytes "suggest_code to place it in the user's prompt for them to run themselves."

def mcpConfig (mcpPort : Nat) : Bytes :=
  bytes "\x7b\"mcpServers\":\x7b\"raoui\":\x7b\"type\":\"http\",\"url\":\"http://127.0.0.1:" ++
    decimal mcpPort ++ bytes "/mcp\"\x7d\x7d\x7d"

/-! ## Session ids -/

def hexDigit (n : UInt8) : UInt8 := if n < 10 then 48 + n else 87 + n

/-- A byte as `%02x` prints it. -/
def hex (b : UInt8) : Bytes := [hexDigit (b / 16), hexDigit (b % 16)]

/-- `random_uuid`, from the bytes `Random.int` drew. -/
def randomUuid (drawn : Fin 16 → UInt8) : Bytes :=
  let b (i : Fin 16) : UInt8 :=
    if i = 6 then drawn 6 &&& 0x0f ||| 0x40
    else if i = 8 then drawn 8 &&& 0x3f ||| 0x80
    else drawn i
  let h (i : Fin 16) : Bytes := hex (b i)
  h 0 ++ h 1 ++ h 2 ++ h 3 ++ bytes "-" ++ h 4 ++ h 5 ++ bytes "-" ++ h 6 ++ h 7 ++ bytes "-" ++
    h 8 ++ h 9 ++ bytes "-" ++ h 10 ++ h 11 ++ h 12 ++ h 13 ++ h 14 ++ h 15

def claudeArgs (mcpPort : Nat) (session : List Bytes) (query : Bytes) : List Bytes :=
  [bytes "claude", bytes "-p", query, bytes "--output-format", bytes "stream-json",
    bytes "--verbose"] ++
  session ++
  [bytes "--tools", bytes "", bytes "--mcp-config", mcpConfig mcpPort, bytes "--strict-mcp-config",
    bytes "--allowedTools", bytes "mcp__raoui__get_history", bytes "mcp__raoui__search_history",
    bytes "mcp__raoui__run_r", bytes "mcp__raoui__suggest_code", bytes "--system-prompt",
    systemPrompt, bytes "--model", bytes "sonnet"]

/-! ## Output lines -/

/-- `Yojson.Safe.t`; a float keeps its text. -/
inductive Json where
  | null
  | bool (b : Bool)
  | int (i : Int)
  | intlit (s : Bytes)
  | float (s : Bytes)
  | string (s : Bytes)
  | assoc (fields : List (Bytes × Json))
  | list (items : List Json)

def Json.field (key : Bytes) : Json → Option Json
  | .assoc fields => fields.lookup key
  | _ => none

def Json.asString : Option Json → Option Bytes
  | some (.string s) => some s
  | _ => none

def blockType (b : Json) : Option Bytes := Json.asString (b.field (bytes "type"))

def shortToolName (name : Bytes) : Bytes :=
  if (bytes "mcp__raoui__").isPrefixOf name then name.drop (bytes "mcp__raoui__").length else name

/-- The chunks of one assistant event: its tool calls alone, or its text. -/
def assistantChunks (json : Json) : List ResponseChunk :=
  if Json.asString (json.field (bytes "type")) = some (bytes "assistant") then
    match (json.field (bytes "message")).bind (Json.field (bytes "content")) with
    | some (.list blocks) =>
      let toolCalls := blocks.filterMap fun b =>
        if blockType b = some (bytes "tool_use") then
          (Json.asString (b.field (bytes "name"))).map fun n => .aiToolCall (shortToolName n)
        else none
      if toolCalls ≠ [] then toolCalls
      else
        let text := (blocks.filterMap fun b =>
          if blockType b = some (bytes "text") then Json.asString (b.field (bytes "text"))
          else none).flatten
        if trim text = [] then []
        else [.aiOutput (if text.getLast? = some newline then text else text ++ [newline])]
    | _ => []
  else []

def diagnosticsKeep : Nat := 20

/-- `handle_line`: the diagnostics after the line and the chunks it adds. -/
def handleLine (fromString : Bytes → Option Json) (diagnostics : List Bytes) (line : Bytes) :
    List Bytes × List ResponseChunk :=
  match fromString line with
  | none =>
    (if trim line ≠ [] then line :: diagnostics.take (diagnosticsKeep - 1) else diagnostics, [])
  | some json => (diagnostics, assistantChunks json)

/-- How `run_claude` ends: with the child's exit status, or by an exception with this text. -/
inductive Ending where
  | exited (code : Int)
  | signaled (signal : Int)
  | raised (exn : Bytes)
  deriving DecidableEq, Repr

/-- Whether the run counts as successful, and the error report it adds otherwise. -/
def report (diagnostics : List Bytes) : Ending → Bool × List ResponseChunk
  | .exited 0 => (true, [])
  | .exited code => failed (bytes "claude exited with code " ++ decimalInt code)
  | .signaled signal => failed (bytes "claude killed by signal " ++ decimalInt signal)
  | .raised exn => (false, [.aiOutput (bytes "[ai error] " ++ exn ++ [newline])])
where
  failed (what : Bytes) : Bool × List ResponseChunk :=
    let tail := concatWith [newline] diagnostics.reverse
    (false, [.aiOutput (bytes "[ai error] " ++ what ++
      if tail = [] then [newline] else bytes ":\n" ++ tail ++ [newline])])

/-! ## The backend -/

structure AiBackend where
  chunks : List ResponseChunk
  sessionId : Bytes
  started : Bool
  deriving DecidableEq, Repr

namespace AiBackend

def add (t : AiBackend) (chunks : List ResponseChunk) : AiBackend :=
  { t with chunks := t.chunks ++ chunks }

def create (drawn : Fin 16 → UInt8) : AiBackend := ⟨[], randomUuid drawn, false⟩

/-- The session flags the query is spawned with. -/
def session (t : AiBackend) : List Bytes :=
  if t.started then [bytes "--resume", t.sessionId] else [bytes "--session-id", t.sessionId]

/-- The end of the fiber a query runs in. -/
def finish (t : AiBackend) (diagnostics : List Bytes) (ending : Ending) : AiBackend :=
  let (ok, error) := report diagnostics ending
  let t := t.add error
  ({ t with started := t.started || ok }).add [.aiDone]

def reset (t : AiBackend) (drawn : Fin 16 → UInt8) : AiBackend :=
  ({ t with sessionId := randomUuid drawn, started := false }).add
    [.aiOutput (bytes "[started a new AI conversation]\n"), .aiDone]

@[simp] theorem finish_sessionId (t : AiBackend) (diagnostics : List Bytes) (ending : Ending) :
    (t.finish diagnostics ending).sessionId = t.sessionId := rfl

@[simp] theorem finish_started (t : AiBackend) (diagnostics : List Bytes) (ending : Ending) :
    (t.finish diagnostics ending).started = (t.started || (report diagnostics ending).1) := rfl

@[simp] theorem reset_sessionId (t : AiBackend) (drawn : Fin 16 → UInt8) :
    (t.reset drawn).sessionId = randomUuid drawn := rfl

@[simp] theorem reset_started (t : AiBackend) (drawn : Fin 16 → UInt8) :
    (t.reset drawn).started = false := rfl

end AiBackend

/-- A query's fiber, with the number it was forked under. -/
structure AiRun where
  number : Nat
  argv : List Bytes
  diagnostics : List Bytes
  deriving DecidableEq, Repr

/-- What an observer of the process table and of the session ids sees. -/
inductive Entry where
  | session (id : Bytes)
  | spawned (number : Nat) (argv : List Bytes)
  | finished (number : Nat) (ok : Bool)
  deriving DecidableEq, Repr

/-- The backend, the fibers in flight and, as a ghost, the log of what happened, newest first. -/
structure System where
  backend : AiBackend
  runs : List AiRun
  forked : Nat
  log : List Entry
  deriving DecidableEq, Repr

inductive Event where
  | submit (query : Bytes)
  | line (number : Nat) (line : Bytes)
  | finish (number : Nat) (ending : Ending)
  | reset (drawn : Fin 16 → UInt8)
  | take

namespace System

def create (drawn : Fin 16 → UInt8) : System :=
  ⟨.create drawn, [], 0, [.session (randomUuid drawn)]⟩

def submit (s : System) (mcpPort : Nat) (query : Bytes) : System :=
  let argv := claudeArgs mcpPort s.backend.session query
  { s with
    runs := s.runs ++ [⟨s.forked, argv, []⟩]
    forked := s.forked + 1
    log := .spawned s.forked argv :: s.log }

def readLine (fromString : Bytes → Option Json) (s : System) (run : AiRun) (line : Bytes) : System :=
  let (diagnostics, chunks) := handleLine fromString run.diagnostics line
  { s with
    backend := s.backend.add chunks
    runs := s.runs.map fun r => if r.number = run.number then { r with diagnostics } else r }

def finish (s : System) (run : AiRun) (ending : Ending) : System :=
  { s with
    backend := s.backend.finish run.diagnostics ending
    runs := s.runs.filter (·.number ≠ run.number)
    log := .finished run.number (report run.diagnostics ending).1 :: s.log }

def reset (s : System) (drawn : Fin 16 → UInt8) : System :=
  { s with
    backend := s.backend.reset drawn
    log := .session (randomUuid drawn) :: s.log }

end System

/-- One step of a fiber or of the event loop; `none` where the event cannot happen. -/
def step (fromString : Bytes → Option Json) (mcpPort : Nat) (s : System) : Event → Option System
  | .submit query => some (s.submit mcpPort query)
  | .line number line =>
    (s.runs.find? (·.number = number)).map fun run => s.readLine fromString run line
  | .finish number ending =>
    (s.runs.find? (·.number = number)).map fun run => s.finish run ending
  | .reset drawn => some (s.reset drawn)
  | .take =>
    match s.backend.chunks with
    | [] => none
    | _ :: chunks => some { s with backend := { s.backend with chunks } }

end Ai
end Raoui
