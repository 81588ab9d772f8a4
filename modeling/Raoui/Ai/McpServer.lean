import Raoui.Ai.Backend
import Raoui.Lib.Outcome

/-!
# Raoui.Ai.McpServer

`lib/mcp_server.ml`: one JSON-RPC request of the MCP server. The queries of the history, the sandbox
and the callback for suggestions are parameters.

* `handleRpc`: the reply to a message, if it gets one.
* `Proper`: what a message should get.
* `handleRpc_spec`: what it does get.
* `proper_iff`: the messages that get what they should.
-/

namespace Raoui
namespace Mcp

open Ai (Json)
open Ffi (decimal)

/-- `int_of_string`. -/
def intOfString (s : Bytes) : Res Int :=
  match intOfStringOpt s with
  | some n => .ok n
  | none => .error (.failure (bytes "int_of_string"))

/-! ## Messages -/

def text (s : String) : Json := .string (bytes s)

/-- An object whose members are named by string literals. -/
def object (fields : List (String × Json)) : Json := .assoc (fields.map fun f => (bytes f.1, f.2))

def field (key : String) (json : Json) : Option Json := json.field (bytes key)

def protocolVersion : Json := text "2025-06-18"

def defaultLimit : Int := 20

def errInvalidRequest : Int := -32600
def errMethodNotFound : Int := -32601
def errInvalidParams : Int := -32602

def okResult (id result : Json) : Json :=
  object [("jsonrpc", text "2.0"), ("id", id), ("result", result)]

def errorResult (id : Json) (code : Int) (msg : Bytes) : Json :=
  object [("jsonrpc", text "2.0"), ("id", id),
    ("error", object [("code", .int code), ("message", .string msg)])]

def toolTextResult (s : Bytes) : Json :=
  object [("content", .list [object [("type", text "text"), ("text", .string s)]]),
    ("isError", .bool false)]

/-! ## Schemas -/

/-- A tool as `tools/list` advertises it. -/
def toolSchema (name description : String) (properties : List (String × Json))
    (required : List String) : Json :=
  let inputSchema := [("type", text "object"), ("properties", object properties)]
  let required := if required = [] then [] else [("required", .list (required.map text))]
  object [("name", text name), ("description", text description),
    ("inputSchema", object (inputSchema ++ required))]

def argumentSchema (type description : String) : Json :=
  object [("type", text type), ("description", text description)]

def getHistorySchema : Json :=
  toolSchema "get_history"
    ("Return the user's most recent raoui REPL interactions: each R (or " ++
      "shell) command they submitted and its output. Use this to ground " ++
      "answers about what the user has been doing in their session.")
    [("limit", argumentSchema "integer"
      "Maximum number of recent interactions to return (default 20).")] []

def searchHistorySchema : Json :=
  toolSchema "search_history"
    ("Search the user's raoui REPL history (this session) for a keyword " ++
      "across both the commands they submitted and the output those " ++
      "commands produced. Returns matching interactions, most recent " ++
      "first. Use this to find where the user worked with a particular " ++
      "variable, function, dataset, or value instead of scanning all of get_history.")
    [("keyword", argumentSchema "string"
        "Substring to search for in commands and output (case-insensitive)."),
      ("limit", argumentSchema "integer"
        "Maximum number of matching interactions to return (default 20).")] ["keyword"]

def runRSchema : Json :=
  toolSchema "run_r"
    ("Evaluate R code in a sandboxed fork of the user's live session and " ++
      "return its printed output. The fork sees the user's current " ++
      "variables, but it is read-only: file writes, network, and system() " ++
      "are blocked, and any changes do NOT persist to the real session. " ++
      "Use this to inspect data and compute. For code meant to CHANGE the " ++
      "session (assignments to keep, writing files, plots), do not run it " ++
      "— propose it for the user to run instead.")
    [("code", argumentSchema "string" "R code to evaluate.")] ["code"]

def suggestCodeSchema : Json :=
  toolSchema "suggest_code"
    ("Place R code into the user's input prompt for them to review and run " ++
      "themselves. Use this for code that should CHANGE the session or have " ++
      "side effects (assignments to keep, writing files, plotting) — the " ++
      "opposite of run_r, which is for read-only exploration. The code is " ++
      "not executed; it is dropped into the prompt as editable text.")
    [("code", argumentSchema "string" "R code to place in the prompt.")] ["code"]

/-! ## Tools -/

/-- A row of `History.outputs_for_command`. -/
structure Output where
  text : Option Bytes
  imagePath : Option Bytes

/-- `History.interaction`. -/
structure Interaction where
  input : Bytes
  mode : Bytes
  outputs : List Output

/-- What the server calls: `History.recent_interactions` and `search_interactions`,
`Rffi.run_r_sandboxed` and `on_suggestion`. -/
structure Calls where
  recentInteractions : Int → Res (List Interaction)
  searchInteractions : Bytes → Int → Res (List Interaction)
  runRSandboxed : Bytes → Res Bytes
  onSuggestion : Bytes → Res Unit

def formatOutput (o : Output) : Bytes :=
  match o.text with
  | some text => text
  | none =>
    match o.imagePath with
    | some _ => bytes "[plot]"
    | none => []

def formatInteraction (it : Interaction) : Bytes :=
  let body := concatWith [newline] ((it.outputs.map formatOutput).filter (· ≠ []))
  bytes "[" ++ it.mode ++ bytes "] " ++ it.input ++ (if body = [] then [] else newline :: body)

/-- The interactions, numbered from 1. -/
def formatInteractions (its : List Interaction) : Bytes :=
  concatWith [newline, newline]
    (its.mapIdx fun i it => decimal (i + 1) ++ bytes ". " ++ formatInteraction it)

/-- `%S`: a string as OCaml writes it, with `String.escaped`. -/
def quoted (s : Bytes) : Bytes :=
  let escaped (c : UInt8) : Bytes :=
    if c = 34 then bytes "\\\""
    else if c = 92 then bytes "\\\\"
    else if c = 10 then bytes "\\n"
    else if c = 9 then bytes "\\t"
    else if c = 13 then bytes "\\r"
    else if c = 8 then bytes "\\b"
    else if 32 ≤ c ∧ c ≤ 126 then [c]
    else [92, 48 + c / 100, 48 + c / 10 % 10, 48 + c % 10]
  bytes "\"" ++ s.flatMap escaped ++ bytes "\""

def getHistory (calls : Calls) (limit : Int) : Res Bytes := do
  match (← calls.recentInteractions limit).reverse with
  | [] => return bytes "(no history yet)"
  | its => return formatInteractions its

def searchHistory (calls : Calls) (keyword : Bytes) (limit : Int) : Res Bytes := do
  match (← calls.searchInteractions keyword limit).reverse with
  | [] => return bytes "(no interactions matching " ++ quoted keyword ++ bytes ")"
  | its => return formatInteractions its

def runR (calls : Calls) (code : Bytes) : Res Bytes := do
  let output ← calls.runRSandboxed code
  return if output = [] then bytes "(no output)" else output

/-- An argument of a `tools/call` request. -/
def argument (key : String) (json : Json) : Option Json :=
  ((field "params" json).bind (field "arguments")).bind (field key)

/-- `raw` of `call_limit`. -/
def rawLimit (json : Json) : Res Int :=
  match argument "limit" json with
  | some (.int n) => return n
  | some (.intlit s) => intOfString s
  | _ => return defaultLimit

def callLimit (json : Json) : Res Int := do return max 0 (← rawLimit json)

def callStringArg (key : String) (json : Json) : Option Bytes :=
  match argument key json with
  | some (.string s) => some s
  | _ => none

/-! ## Requests -/

def initializeResult : Json :=
  object [("protocolVersion", protocolVersion),
    ("capabilities", object [("tools", object [])]),
    ("serverInfo", object [("name", text "raoui"), ("version", text "0.1")])]

def toolsListResult : Json :=
  object [("tools", .list [getHistorySchema, searchHistorySchema, runRSchema, suggestCodeSchema])]

/-- The reply of a tool that takes one string. -/
def withStringArg (key : String) (json id : Json) (missing : String) (tool : Bytes → Res Bytes) :
    Res Json :=
  match callStringArg key json with
  | some s => do return okResult id (toolTextResult (← tool s))
  | none => return errorResult id errInvalidParams (bytes missing)

/-- The reply to `tools/call`. -/
def callTool (calls : Calls) (json id : Json) : Res Json :=
  match field "params" json with
  | none => return errorResult id errInvalidParams (bytes "missing params")
  | some params =>
    match field "name" params with
    | some (.string name) =>
      if name = bytes "get_history" then do
        let limit ← callLimit json
        return okResult id (toolTextResult (← getHistory calls limit))
      else if name = bytes "search_history" then
        withStringArg "keyword" json id "search_history requires a 'keyword' string argument"
          fun keyword => do searchHistory calls keyword (← callLimit json)
      else if name = bytes "run_r" then
        withStringArg "code" json id "run_r requires a 'code' string argument" (runR calls)
      else if name = bytes "suggest_code" then
        withStringArg "code" json id "suggest_code requires a 'code' string argument" fun code => do
          calls.onSuggestion code
          return bytes "Code placed in the user's input prompt."
      else return errorResult id errInvalidParams (bytes "unknown tool: " ++ name)
    | _ => return errorResult id errInvalidParams (bytes "missing tool name")

def handleRpc (calls : Calls) (json : Json) : Res (Option Json) :=
  let id := (field "id" json).getD .null
  match field "method" json with
  | some (.string method) =>
    if method = bytes "initialize" then return some (okResult id initializeResult)
    else if method = bytes "notifications/initialized" then return none
    else if method = bytes "tools/list" then return some (okResult id toolsListResult)
    else if method = bytes "tools/call" then do return some (← callTool calls json id)
    else return some (errorResult id errMethodNotFound (bytes "method not found: " ++ method))
  | _ => return some (errorResult id errInvalidRequest (bytes "invalid request"))

/-! ## What a message should get -/

/-- None of the calls raises, for a limit that is not negative. -/
structure Calls.Answers (calls : Calls) : Prop where
  recent : ∀ limit, 0 ≤ limit → ∃ its, calls.recentInteractions limit = .ok its
  search : ∀ keyword limit, 0 ≤ limit → ∃ its, calls.searchInteractions keyword limit = .ok its
  run : ∀ code, ∃ output, calls.runRSandboxed code = .ok output
  suggestion : ∀ code, ∃ u, calls.onSuggestion code = .ok u

/-- A reply to the request `id`: it echoes the id and has either a result or an error. -/
structure Replies (id reply : Json) : Prop where
  echo : field "id" reply = some id
  either : (field "result" reply).isSome = !(field "error" reply).isSome

/-- A request gets one reply, a message without an id gets none, and nothing is raised. -/
def Proper (calls : Calls) (json : Json) : Prop :=
  ∃ reply, handleRpc calls json = .ok reply ∧
    (∀ id, field "id" json = some id → ∃ r, reply = some r ∧ Replies id r) ∧
    (field "id" json = none → reply = none)

/-- The notification the server knows. -/
def IsInitialized (json : Json) : Prop :=
  field "method" json = some (text "notifications/initialized")

/-- The limit is an integer literal that cannot be read. -/
def LimitTooBig (json : Json) : Prop :=
  ∃ s, argument "limit" json = some (.intlit s) ∧ intOfStringOpt s = none

/-- The tool that is called reads the limit. -/
def ReadsLimit (json : Json) : Prop :=
  ∃ params, field "params" json = some params ∧
    (field "name" params = some (text "get_history") ∨
      field "name" params = some (text "search_history") ∧ (callStringArg "keyword" json).isSome)

/-- A call of a tool with a limit it cannot read. -/
def Unreadable (json : Json) : Prop :=
  field "method" json = some (text "tools/call") ∧ ReadsLimit json ∧ LimitTooBig json

theorem okResult_replies (id result : Json) : Replies id (okResult id result) := ⟨rfl, rfl⟩

theorem errorResult_replies (id : Json) (code : Int) (msg : Bytes) :
    Replies id (errorResult id code msg) := ⟨rfl, rfl⟩

variable {calls : Calls} {json id : Json}

/-- The limit is clamped, so the queries may be called with it. -/
theorem callLimit_nonneg {n : Int} (h : callLimit json = .ok n) : 0 ≤ n := by
  obtain ⟨raw, -, heq⟩ := Outcome.bind_eq_ok.mp h
  cases heq
  exact Int.le_max_left 0 raw

theorem callLimit_eq (json : Json) :
    (LimitTooBig json → callLimit json = .error (.failure (bytes "int_of_string"))) ∧
      (¬ LimitTooBig json → ∃ n, callLimit json = .ok n) := by
  unfold callLimit rawLimit LimitTooBig
  constructor
  · rintro ⟨s, hs, hread⟩
    rw [hs]
    simp [intOfString, hread]
  · intro hreadable
    split
    · exact ⟨_, rfl⟩
    · rename_i s hs
      cases hread : intOfStringOpt s with
      | none => exact absurd ⟨s, hs, hread⟩ hreadable
      | some n =>
        simp only [intOfString, hread]
        exact ⟨_, rfl⟩
    · exact ⟨_, rfl⟩

theorem getHistory_returns (h : calls.Answers) {limit : Int} (hlimit : 0 ≤ limit) :
    ∃ s, getHistory calls limit = .ok s := by
  obtain ⟨its, hits⟩ := h.recent limit hlimit
  unfold getHistory
  rw [hits]
  dsimp only [Bind.bind, Except.bind]
  split
  · exact ⟨_, rfl⟩
  · exact ⟨_, rfl⟩

theorem searchHistory_returns (h : calls.Answers) (keyword : Bytes) {limit : Int}
    (hlimit : 0 ≤ limit) : ∃ s, searchHistory calls keyword limit = .ok s := by
  obtain ⟨its, hits⟩ := h.search keyword limit hlimit
  unfold searchHistory
  rw [hits]
  dsimp only [Bind.bind, Except.bind]
  split
  · exact ⟨_, rfl⟩
  · exact ⟨_, rfl⟩

theorem runR_returns (h : calls.Answers) (code : Bytes) : ∃ s, runR calls code = .ok s := by
  obtain ⟨output, houtput⟩ := h.run code
  exact ⟨_, Outcome.bind_eq_ok.mpr ⟨output, houtput, rfl⟩⟩

/-- A tool that takes a string replies, if it returns for the string it is given. -/
theorem withStringArg_replies {key missing : String} {tool : Bytes → Res Bytes}
    (h : ∀ s, callStringArg key json = some s → ∃ out, tool s = .ok out) :
    ∃ r, withStringArg key json id missing tool = .ok r ∧ Replies id r := by
  unfold withStringArg
  split
  · rename_i s hs
    obtain ⟨out, hout⟩ := h s hs
    exact ⟨_, Outcome.bind_eq_ok.mpr ⟨out, hout, rfl⟩, okResult_replies _ _⟩
  · exact ⟨_, rfl, errorResult_replies _ _ _⟩

theorem callTool_raises (hreads : ReadsLimit json) (hbig : LimitTooBig json) :
    callTool calls json id = .error (.failure (bytes "int_of_string")) := by
  obtain ⟨params, hparams, hname⟩ := hreads
  have hlimit := (callLimit_eq json).1 hbig
  unfold callTool
  rw [hparams]
  dsimp only
  obtain hname | ⟨hname, hkeyword⟩ := hname
  · rw [hname]
    dsimp only [text]
    rw [if_pos rfl, hlimit]
    rfl
  · obtain ⟨keyword, hkeyword⟩ := Option.isSome_iff_exists.mp hkeyword
    rw [hname]
    dsimp only [text]
    rw [if_neg (by decide), if_pos rfl, withStringArg, hkeyword]
    dsimp only
    rw [hlimit]
    rfl

theorem callTool_replies (h : calls.Answers) (hreadable : ReadsLimit json → ¬ LimitTooBig json) :
    ∃ r, callTool calls json id = .ok r ∧ Replies id r := by
  have herror : ∀ msg, ∃ r, (.ok (errorResult id errInvalidParams msg) : Res Json) = .ok r ∧
      Replies id r := fun msg => ⟨_, rfl, errorResult_replies _ _ _⟩
  unfold callTool
  split
  · exact herror _
  · rename_i params hparams
    split
    · rename_i name hname
      split
      · rename_i hget
        obtain ⟨limit, hlimit⟩ :=
          (callLimit_eq json).2 (hreadable ⟨params, hparams, .inl (by rw [hname, hget]; rfl)⟩)
        obtain ⟨s, hs⟩ := getHistory_returns h (callLimit_nonneg hlimit)
        exact ⟨_, Outcome.bind_eq_ok.mpr ⟨limit, hlimit, Outcome.bind_eq_ok.mpr ⟨s, hs, rfl⟩⟩,
          okResult_replies _ _⟩
      · split
        · rename_i hsearch
          refine withStringArg_replies fun keyword hkeyword => ?_
          obtain ⟨limit, hlimit⟩ := (callLimit_eq json).2
            (hreadable ⟨params, hparams, .inr ⟨by rw [hname, hsearch]; rfl, by rw [hkeyword]; rfl⟩⟩)
          obtain ⟨s, hs⟩ := searchHistory_returns h keyword (callLimit_nonneg hlimit)
          exact ⟨s, Outcome.bind_eq_ok.mpr ⟨limit, hlimit, hs⟩⟩
        · split
          · exact withStringArg_replies fun code _ => runR_returns h code
          · split
            · refine withStringArg_replies fun code _ => ?_
              obtain ⟨u, hu⟩ := h.suggestion code
              exact ⟨_, Outcome.bind_eq_ok.mpr ⟨u, hu, rfl⟩⟩
            · exact herror _
    · exact herror _

/-- Every message but the notification the server knows gets a reply, unless its limit cannot be
read. -/
theorem handleRpc_spec (h : calls.Answers) (json : Json) :
    (IsInitialized json → handleRpc calls json = .ok none) ∧
    (Unreadable json → handleRpc calls json = .error (.failure (bytes "int_of_string"))) ∧
    (¬ IsInitialized json → ¬ Unreadable json →
      ∃ r, handleRpc calls json = .ok (some r) ∧ Replies ((field "id" json).getD .null) r) := by
  refine ⟨fun hinit => ?_, fun ⟨hmethod, hreads, hbig⟩ => ?_, fun hinit hreadable => ?_⟩
  · unfold handleRpc
    rw [show field "method" json = some (text "notifications/initialized") from hinit]
    rfl
  · unfold handleRpc
    rw [hmethod]
    dsimp only [text]
    rw [if_neg (by decide), if_neg (by decide), if_neg (by decide), if_pos rfl,
      callTool_raises hreads hbig]
    rfl
  · unfold handleRpc
    split
    · rename_i method hmethod
      split
      · exact ⟨_, rfl, okResult_replies _ _⟩
      · split
        · rename_i heq
          exact absurd (by rw [IsInitialized, hmethod, heq]; rfl) hinit
        · split
          · exact ⟨_, rfl, okResult_replies _ _⟩
          · split
            · rename_i heq
              obtain ⟨r, hr, hreplies⟩ := @callTool_replies calls json
                ((field "id" json).getD .null) h fun hreads hbig =>
                  hreadable ⟨by rw [hmethod, heq]; rfl, hreads, hbig⟩
              exact ⟨r, Outcome.bind_eq_ok.mpr ⟨r, hr, rfl⟩, hreplies⟩
            · exact ⟨_, rfl, errorResult_replies _ _ _⟩
    · exact ⟨_, rfl, errorResult_replies _ _ _⟩

/-- A message gets what it should if it is not a call with a limit that cannot be read, and carries
an id unless it is the one notification the server knows. -/
theorem proper_iff (h : calls.Answers) (json : Json) :
    Proper calls json ↔
      ¬ Unreadable json ∧ ((field "id" json).isSome ↔ ¬ IsInitialized json) := by
  obtain ⟨hinitialized, hraises, hreplies⟩ := handleRpc_spec h json
  constructor
  · rintro ⟨reply, hreply, hsome, hnone⟩
    have hreadable : ¬ Unreadable json := fun hun => by
      cases (hraises hun).symm.trans hreply
    refine ⟨hreadable, fun hid hinit => ?_, fun hinit => ?_⟩
    · obtain ⟨id, hid⟩ := Option.isSome_iff_exists.mp hid
      obtain ⟨r, rfl, -⟩ := hsome id hid
      cases (hinitialized hinit).symm.trans hreply
    · obtain ⟨r, hr, -⟩ := hreplies hinit hreadable
      by_contra hid
      rw [Option.not_isSome_iff_eq_none] at hid
      cases hnone hid
      cases hr.symm.trans hreply
  · rintro ⟨hreadable, hid⟩
    by_cases hinit : IsInitialized json
    · refine ⟨none, hinitialized hinit, fun id hsome => ?_, fun _ => rfl⟩
      exact absurd hinit (hid.mp (by rw [hsome]; rfl))
    · obtain ⟨r, hr, hreply⟩ := hreplies hinit hreadable
      refine ⟨some r, hr, fun id hsome => ⟨r, rfl, ?_⟩, fun hnone => ?_⟩
      · rw [hsome] at hreply
        exact hreply
      · have := hid.mpr hinit
        rw [hnone] at this
        cases this

/-! ## A session without history -/

/-- The queries of an empty history, with their assertion, and an R that prints nothing. -/
def emptyHistory : Calls where
  recentInteractions limit := if 0 ≤ limit then .ok [] else .error .assertFailure
  searchInteractions _ limit := if 0 ≤ limit then .ok [] else .error .assertFailure
  runRSandboxed _ := .ok []
  onSuggestion _ := .ok ()

theorem emptyHistory_answers : emptyHistory.Answers where
  recent _ hlimit := ⟨_, if_pos hlimit⟩
  search _ _ hlimit := ⟨_, if_pos hlimit⟩
  run _ := ⟨_, rfl⟩
  suggestion _ := ⟨_, rfl⟩

theorem proper_iff_emptyHistory :
    Proper emptyHistory (object [("id", .int 1), ("method", text "tools/list")]) ↔
      ¬ Unreadable (object [("id", .int 1), ("method", text "tools/list")]) ∧
        ((field "id" (object [("id", .int 1), ("method", text "tools/list")])).isSome ↔
          ¬ IsInitialized (object [("id", .int 1), ("method", text "tools/list")])) :=
  proper_iff emptyHistory_answers _

/-- A request for more interactions than an `int` can count. -/
def bigRequest : Json :=
  object [("jsonrpc", text "2.0"), ("id", .int 1), ("method", text "tools/call"),
    ("params", object [("name", text "get_history"),
      ("arguments", object [("limit", .intlit (bytes "9223372036854775808"))])])]

def cancelledNotification : Json :=
  object [("jsonrpc", text "2.0"), ("method", text "notifications/cancelled")]

/-- The limit raises instead of being clamped, and a notification gets an error reply. -/
theorem improper_messages :
    handleRpc emptyHistory bigRequest = .error (.failure (bytes "int_of_string")) ∧
    ¬ Proper emptyHistory bigRequest ∧
    handleRpc emptyHistory cancelledNotification = .ok (some (errorResult .null errMethodNotFound
      (bytes "method not found: notifications/cancelled"))) ∧
    ¬ Proper emptyHistory cancelledNotification := by
  refine ⟨rfl, fun ⟨reply, hreply, _⟩ => ?_, rfl, fun ⟨reply, hreply, _, hnone⟩ => ?_⟩
  · cases (show handleRpc emptyHistory bigRequest = .error _ from rfl).symm.trans hreply
  · cases hnone rfl
    cases (show handleRpc emptyHistory cancelledNotification = .ok (some _) from rfl).symm.trans
      hreply

end Mcp
end Raoui
