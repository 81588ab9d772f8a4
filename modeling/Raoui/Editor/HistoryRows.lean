import Mathlib.Data.List.MinMax
import Raoui.Editor.History

/-!
# Raoui.Editor.HistoryRows

The history store seen from one command: its rows in `outputs` and its status. The store has one
active command; what an operation writes goes to that one.

* `Untouched`: the rows and the status of a command are the same in two stores.
* `recordResponse_untouched`, `addToHistory_untouched`: a command that is not active is left alone.
* `Tally.record`, `Tally.closes`: what becomes of the active one.
-/

namespace Raoui

open Ffi (ResponseChunk)

/-- The responses that make a command end as `error`. -/
def Ffi.ResponseChunk.isError : ResponseChunk → Bool
  | .rError _ | .internalError _ => true
  | _ => false

namespace History

def Db.ids (db : Db) : List Nat := db.commands.map Command.id

/-- `SELECT .. FROM outputs WHERE command_id = ?`. -/
def Db.rowsOf (db : Db) (id : Nat) : List Output := db.outputs.filter fun o => o.commandId = id

def Output.content (o : Output) : Bytes × Option Bytes × Option Bytes :=
  (o.kind, o.text, o.imagePath)

def Db.contents (db : Db) (id : Nat) : List (Bytes × Option Bytes × Option Bytes) :=
  (db.rowsOf id).map Output.content

def Db.status (db : Db) (id : Nat) : Option Status :=
  (db.commands.find? fun c => c.id = id).map Command.status

/-- `REFERENCES commands(id)`. -/
def Db.Referential (db : Db) : Prop := ∀ o ∈ db.outputs, o.commandId ∈ db.ids

/-- The ordinals of a command's rows count up from 0. -/
def Db.Numbered (db : Db) (id : Nat) : Prop :=
  (db.rowsOf id).map Output.ordinal = List.range (db.rowsOf id).length

structure Untouched (t t' : History) (id : Nat) : Prop where
  rows : t'.db.rowsOf id = t.db.rowsOf id
  status : t'.db.status id = t.db.status id

variable {t t' t'' : History} {id : Nat}

theorem Untouched.refl : Untouched t t id := ⟨rfl, rfl⟩

theorem Untouched.trans (h : Untouched t t' id) (h' : Untouched t' t'' id) :
    Untouched t t'' id :=
  ⟨h'.rows.trans h.rows, h'.status.trans h.status⟩

theorem Untouched.contents (h : Untouched t t' id) : t'.db.contents id = t.db.contents id := by
  unfold Db.contents
  rw [h.rows]

theorem Untouched.numbered (h : Untouched t t' id) (hn : t.db.Numbered id) :
    t'.db.Numbered id := by
  unfold Db.Numbered
  rw [h.rows]
  exact hn

/-! ## Writing to a table -/

@[simp] theorem setStatus_outputs (db : Db) (id : Nat) (status : Status) :
    (db.setStatus id status).outputs = db.outputs := rfl

@[simp] theorem setStatus_ids (db : Db) (id : Nat) (status : Status) :
    (db.setStatus id status).ids = db.ids := by
  simp only [Db.ids, Db.setStatus, List.map_map]
  refine List.map_congr_left fun c _ => ?_
  show (if c.id = id then { c with status } else c).id = c.id
  split <;> rfl

theorem find?_setStatus (commands : List Command) (id id' : Nat) (status : Status) :
    (commands.map fun c => if c.id = id then { c with status } else c).find?
        (fun c => c.id = id') =
      (commands.find? fun c => c.id = id').map
        fun c => if c.id = id then { c with status } else c := by
  rw [List.find?_map]
  congr 2
  funext c
  show decide ((if c.id = id then { c with status } else c).id = id') = decide (c.id = id')
  split <;> rfl

theorem status_setStatus_ne (db : Db) {id id' : Nat} (h : id' ≠ id) (status : Status) :
    (db.setStatus id status).status id' = db.status id' := by
  simp only [Db.status, Db.setStatus, find?_setStatus, Option.map_map]
  cases hf : db.commands.find? fun c => c.id = id' with
  | none => rfl
  | some c =>
    have hc : c.id = id' := by simpa using List.find?_some hf
    show some (if c.id = id then { c with status } else c).status = some c.status
    rw [if_neg (by rw [hc]; exact h)]

theorem status_setStatus_self {db : Db} {id : Nat} (h : id ∈ db.ids) (status : Status) :
    (db.setStatus id status).status id = some status := by
  obtain ⟨c, hc, hid⟩ := List.mem_map.mp h
  simp only [Db.status, Db.setStatus, find?_setStatus, Option.map_map]
  cases hf : db.commands.find? fun c => c.id = id with
  | none =>
    have := List.find?_eq_none.mp hf c hc
    simp [hid] at this
  | some c' =>
    have hc' : c'.id = id := by simpa using List.find?_some hf
    show some (if c'.id = id then { c' with status } else c').status = some status
    rw [if_pos hc']

/-- The key of the next row is a new one. -/
theorem Db.nextId_not_mem (db : Db) : db.nextId ∉ db.ids := by
  intro hmem
  have hle : db.nextId ≤ db.ids.foldr max 0 := List.le_max_of_le' 0 hmem (Nat.le_refl _)
  exact Nat.not_succ_le_self _ hle

theorem Db.Referential.rowsOf_nil {db : Db} (h : db.Referential) (hid : id ∉ db.ids) :
    db.rowsOf id = [] := by
  refine List.filter_eq_nil_iff.mpr fun o ho => ?_
  simp only [decide_eq_true_eq]
  exact fun heq => hid (heq ▸ h o ho)

/-! ## `finish_active` -/

@[simp] theorem finishActive_active (t : History) (status : Status) :
    (finishActive t status).activeCommandId = none := by
  unfold finishActive
  split <;> simp_all

@[simp] theorem finishActive_outputs (t : History) (status : Status) :
    (finishActive t status).db.outputs = t.db.outputs := by
  unfold finishActive
  split <;> rfl

@[simp] theorem finishActive_ids (t : History) (status : Status) :
    (finishActive t status).db.ids = t.db.ids := by
  unfold finishActive
  split
  · rfl
  · exact setStatus_ids _ _ _

theorem finishActive_untouched (h : t.activeCommandId ≠ some id) (status : Status) :
    Untouched t (finishActive t status) id := by
  unfold finishActive
  split
  · exact .refl
  · rename_i id' heq
    exact ⟨rfl, status_setStatus_ne _ (fun h' => h (by rw [heq, h'])) _⟩

theorem finishActive_rowsOf (t : History) (status : Status) (id : Nat) :
    (finishActive t status).db.rowsOf id = t.db.rowsOf id := by
  rw [Db.rowsOf, finishActive_outputs, Db.rowsOf]

theorem finishActive_status (h : t.activeCommandId = some id) (hid : id ∈ t.db.ids)
    (status : Status) : (finishActive t status).db.status id =
      some (if t.activeCommandHadError then .error else status) := by
  unfold finishActive
  simp only [h]
  exact status_setStatus_self hid _

/-! ## `record_output` -/

theorem recordOutput_frame (t : History) (kind : Bytes) (text imagePath : Option Bytes) :
    (recordOutput t kind text imagePath).activeCommandId = t.activeCommandId ∧
      (recordOutput t kind text imagePath).activeCommandHadError = t.activeCommandHadError ∧
      (recordOutput t kind text imagePath).db.commands = t.db.commands := by
  unfold recordOutput
  split <;> exact ⟨rfl, rfl, rfl⟩

theorem recordOutput_idle (ha : t.activeCommandId = none) (kind : Bytes)
    (text imagePath : Option Bytes) : recordOutput t kind text imagePath = t := by
  simp [recordOutput, ha]

theorem recordOutput_untouched (h : t.activeCommandId ≠ some id) (kind : Bytes)
    (text imagePath : Option Bytes) : Untouched t (recordOutput t kind text imagePath) id := by
  unfold recordOutput
  split
  · exact .refl
  · rename_i id' heq
    have hne : id' ≠ id := fun h' => h (by rw [heq, h'])
    refine ⟨?_, rfl⟩
    simp [Db.rowsOf, List.filter_append, hne]

theorem recordOutput_rowsOf (h : t.activeCommandId = some id) (kind : Bytes)
    (text imagePath : Option Bytes) : (recordOutput t kind text imagePath).db.rowsOf id =
      t.db.rowsOf id ++ [⟨id, t.activeOutputOrdinal, kind, text, imagePath⟩] := by
  simp [recordOutput, h, Db.rowsOf, List.filter_append]

/-! ## `record_response` -/

/-- The status a response closes the active command with, unless it had an error. -/
def closingStatus : ResponseChunk → Option Status
  | .done => some .done
  | .internalError _ | .restarted _ => some .error
  | .shutdown => some .interrupted
  | _ => none

/-- What `record_response` does before it looks whether the command is over. -/
def recordContent (t : History) (r : ResponseChunk) : History :=
  match responseOutput r with
  | none => t
  | some (kind, text, imagePath) =>
    recordOutput (if r.isError then { t with activeCommandHadError := true } else t) kind text
      imagePath

theorem recordResponse_eq (t : History) (r : ResponseChunk) :
    recordResponse t r =
      match closingStatus r with
      | none => recordContent t r
      | some status => finishActive (recordContent t r) status := by
  cases r <;> rfl

theorem isError_recorded {r : ResponseChunk} (h : r.isError = true) :
    (responseOutput r).isSome = true := by
  cases r <;> first | rfl | cases h

theorem recordContent_untouched (h : t.activeCommandId ≠ some id) (r : ResponseChunk) :
    Untouched t (recordContent t r) id := by
  unfold recordContent
  split
  · exact .refl
  · split
    · have h' : { t with activeCommandHadError := true }.activeCommandId ≠ some id := h
      exact ⟨(recordOutput_untouched h' _ _ _).rows, (recordOutput_untouched h' _ _ _).status⟩
    · exact recordOutput_untouched h _ _ _

theorem recordContent_active (t : History) (r : ResponseChunk) :
    (recordContent t r).activeCommandId = t.activeCommandId := by
  unfold recordContent
  split
  · rfl
  · rw [(recordOutput_frame ..).1]
    split <;> rfl

theorem recordContent_commands (t : History) (r : ResponseChunk) :
    (recordContent t r).db.commands = t.db.commands := by
  unfold recordContent
  split
  · rfl
  · rw [(recordOutput_frame ..).2.2]
    split <;> rfl

theorem recordContent_hadError (t : History) (r : ResponseChunk) :
    (recordContent t r).activeCommandHadError = (t.activeCommandHadError || r.isError) := by
  unfold recordContent
  split
  · rename_i hnone
    cases he : r.isError with
    | false => rw [Bool.or_false]
    | true =>
      have := isError_recorded he
      rw [hnone] at this
      cases this
  · rw [(recordOutput_frame ..).2.1]
    cases r.isError <;> simp

theorem recordResponse_untouched (h : t.activeCommandId ≠ some id) (r : ResponseChunk) :
    Untouched t (t.recordResponse r) id := by
  rw [recordResponse_eq]
  split
  · exact recordContent_untouched h r
  · exact (recordContent_untouched h r).trans
      (finishActive_untouched (by rw [recordContent_active]; exact h) _)

theorem recordResponse_ids (t : History) (r : ResponseChunk) :
    (t.recordResponse r).db.ids = t.db.ids := by
  rw [recordResponse_eq]
  split
  · rw [Db.ids, recordContent_commands, Db.ids]
  · rw [finishActive_ids, Db.ids, recordContent_commands, Db.ids]

theorem recordResponse_active (t : History) (r : ResponseChunk) :
    (t.recordResponse r).activeCommandId =
      if (closingStatus r).isSome then none else t.activeCommandId := by
  rw [recordResponse_eq]
  cases closingStatus r with
  | none => exact recordContent_active t r
  | some status => exact finishActive_active _ _

/-- A new row is one of the active command, and nothing is stored without a cause. -/
theorem recordResponse_outputs (t : History) (r : ResponseChunk) :
    (t.recordResponse r).db.outputs = t.db.outputs ∨
      (responseOutput r).isSome = true ∧ ∃ id o, t.activeCommandId = some id ∧
        o.commandId = id ∧ (t.recordResponse r).db.outputs = t.db.outputs ++ [o] := by
  have hcontent : (recordContent t r).db.outputs = t.db.outputs ∨
      (responseOutput r).isSome = true ∧ ∃ id o, t.activeCommandId = some id ∧
        o.commandId = id ∧ (recordContent t r).db.outputs = t.db.outputs ++ [o] := by
    unfold recordContent
    split
    · exact .inl rfl
    · rename_i kind text imagePath hr
      rw [hr]
      unfold recordOutput
      cases ha : t.activeCommandId with
      | none => cases r.isError <;> simp [ha]
      | some id => cases r.isError <;> simp [ha]
  rw [recordResponse_eq]
  split
  · exact hcontent
  · rw [finishActive_outputs]
    exact hcontent

/-- With nothing active, a response changes nothing that is stored. -/
theorem recordResponse_idle (ha : t.activeCommandId = none) {r : ResponseChunk}
    (he : r.isError = false) : t.recordResponse r = t := by
  have hcontent : recordContent t r = t := by
    unfold recordContent
    split
    · rfl
    · rw [he]
      exact recordOutput_idle ha _ _ _
  rw [recordResponse_eq, hcontent]
  split
  · rfl
  · simp [finishActive, ha]

/-! ## The rows of one command -/

/-- Of the responses `rs`, the store has what is stored of each, in order, as the rows of `id`. -/
structure Tally (t : History) (id : Nat) (rs : List ResponseChunk) : Prop where
  known : id ∈ t.db.ids
  contents : t.db.contents id = rs.filterMap responseOutput
  numbered : t.db.Numbered id
  active : t.activeCommandId = some id →
    t.activeCommandHadError = rs.any ResponseChunk.isError ∧
      t.activeOutputOrdinal = (t.db.rowsOf id).length

variable {rs : List ResponseChunk}

/-- A response of which nothing is stored leaves the tally as it is. -/
theorem Tally.pass {r : ResponseChunk} (h : Tally t id rs) (hr : responseOutput r = none) :
    Tally t id (rs ++ [r]) := by
  refine ⟨h.known, ?_, h.numbered, fun ha => ?_⟩
  · rw [h.contents, List.filterMap_append, List.filterMap_cons_none hr, List.filterMap_nil,
      List.append_nil]
  · have he : r.isError = false := by
      cases he : r.isError with
      | false => rfl
      | true =>
        have := isError_recorded he
        rw [hr] at this
        cases this
    refine ⟨?_, (h.active ha).2⟩
    rw [(h.active ha).1, List.any_append, List.any_cons, he, List.any_nil, Bool.or_false,
      Bool.or_false]

theorem Tally.finish (h : Tally t id rs) (status : Status) :
    Tally (finishActive t status) id rs := by
  refine ⟨by rw [finishActive_ids]; exact h.known, ?_, ?_, fun ha => ?_⟩
  · rw [Db.contents, finishActive_rowsOf]
    exact h.contents
  · rw [Db.Numbered, finishActive_rowsOf]
    exact h.numbered
  · rw [finishActive_active] at ha
    cases ha

theorem Tally.output (h : Tally t id rs) (ha : t.activeCommandId = some id) {r : ResponseChunk}
    {kind : Bytes} {text imagePath : Option Bytes}
    (hr : responseOutput r = some (kind, text, imagePath)) (hadError : Bool)
    (he : hadError = (rs.any ResponseChunk.isError || r.isError)) :
    Tally (recordOutput { t with activeCommandHadError := hadError } kind text imagePath) id
      (rs ++ [r]) := by
  have hrows := recordOutput_rowsOf (t := { t with activeCommandHadError := hadError }) ha kind text
    imagePath
  obtain ⟨hactive, herror, hcommands⟩ :=
    recordOutput_frame { t with activeCommandHadError := hadError } kind text imagePath
  have hord := (h.active ha).2
  constructor
  case known =>
    rw [Db.ids, hcommands]
    exact h.known
  case contents =>
    rw [Db.contents, hrows, List.map_append, List.filterMap_append, ← h.contents,
      List.filterMap_cons_some hr]
    rfl
  case numbered =>
    rw [Db.Numbered, hrows, List.map_append, List.length_append, List.length_singleton,
      List.range_succ, ← h.numbered]
    show _ ++ [t.activeOutputOrdinal] = _
    rw [hord]
  case active =>
    refine fun _ => ⟨?_, ?_⟩
    · rw [herror, he, List.any_append, List.any_cons, List.any_nil, Bool.or_false]
    · rw [hrows, List.length_append, List.length_singleton]
      simp [recordOutput, ha, hord]

theorem Tally.recordContent (h : Tally t id rs) (ha : t.activeCommandId = some id)
    (r : ResponseChunk) : Tally (recordContent t r) id (rs ++ [r]) := by
  unfold History.recordContent
  split
  · rename_i hr
    exact h.pass hr
  · rename_i kind text imagePath hr
    have herror := (h.active ha).1
    split
    · rename_i he
      exact h.output ha hr true (by rw [he, Bool.or_true])
    · rename_i he
      rw [Bool.not_eq_true] at he
      exact h.output ha hr t.activeCommandHadError (by rw [herror, he, Bool.or_false])

/-- The active command gets what is stored of a response. -/
theorem Tally.record (h : Tally t id rs) (ha : t.activeCommandId = some id) (r : ResponseChunk) :
    Tally (t.recordResponse r) id (rs ++ [r]) := by
  rw [recordResponse_eq]
  split
  · exact h.recordContent ha r
  · exact (h.recordContent ha r).finish _

/-- A response that ends the active command gives it the status of what it has recorded. -/
theorem Tally.closes (h : Tally t id rs) (ha : t.activeCommandId = some id) {r : ResponseChunk}
    {status : Status} (hr : closingStatus r = some status) :
    (t.recordResponse r).db.status id =
      some (if (rs ++ [r]).any ResponseChunk.isError then .error else status) := by
  have h' := h.recordContent ha r
  have ha' : (History.recordContent t r).activeCommandId = some id := by rw [recordContent_active, ha]
  rw [recordResponse_eq, hr]
  show (finishActive _ status).db.status id = _
  rw [finishActive_status ha' h'.known, (h'.active ha').1]

theorem Tally.untouched (h : Tally t id rs) (hu : Untouched t t' id) (hid : id ∈ t'.db.ids)
    (ha : t'.activeCommandId ≠ some id) : Tally t' id rs :=
  ⟨hid, hu.contents.trans h.contents, hu.numbered h.numbered, fun h' => absurd h' ha⟩

/-! ## `add_to_history` -/

def isBlank (lines : List UnicodeString) : Bool := trim (promptToString lines) = []

theorem addToHistory_blank {lines : List UnicodeString} (h : isBlank lines = true) (mode : Bytes) :
    t.addToHistory mode lines = t := if_pos (of_decide_eq_true h)

/-- The command that is added is the active one and new. -/
theorem addToHistory_new {lines : List UnicodeString} (h : isBlank lines = false) (mode : Bytes) :
    ∃ id, id = (finishActive t .interrupted).db.nextId ∧ id ∉ t.db.ids ∧
      (t.addToHistory mode lines).activeCommandId = some id ∧
      (t.addToHistory mode lines).activeCommandHadError = false ∧
      (t.addToHistory mode lines).activeOutputOrdinal = 0 ∧
      (t.addToHistory mode lines).db.ids = t.db.ids ++ [id] ∧
      (t.addToHistory mode lines).db.outputs = t.db.outputs := by
  have hnew := (finishActive t .interrupted).db.nextId_not_mem
  rw [finishActive_ids] at hnew
  have hadd : t.addToHistory mode lines = _ := if_neg (of_decide_eq_false h)
  refine ⟨_, rfl, hnew, ?_, ?_, ?_, ?_, ?_⟩
  · rw [hadd]
  · rw [hadd]
  · rw [hadd]
  · rw [hadd]
    show List.map Command.id (_ ++ [_]) = _
    rw [List.map_append, ← Db.ids, finishActive_ids]
    rfl
  · rw [hadd]
    exact finishActive_outputs _ _

/-- It has no rows in `outputs` yet. -/
theorem addToHistory_tally {lines : List UnicodeString} (h : isBlank lines = false)
    (href : t.db.Referential) (mode : Bytes) :
    ∃ id, (t.addToHistory mode lines).activeCommandId = some id ∧ id ∉ t.db.ids ∧
      (t.addToHistory mode lines).db.ids = t.db.ids ++ [id] ∧
      (t.addToHistory mode lines).db.outputs = t.db.outputs ∧
      Tally (t.addToHistory mode lines) id [] := by
  obtain ⟨id, -, hnew, hactive, herror, hordinal, hids, houtputs⟩ := addToHistory_new (t := t) h mode
  have hrows : (t.addToHistory mode lines).db.rowsOf id = [] := by
    rw [Db.rowsOf, houtputs, ← Db.rowsOf]
    exact href.rowsOf_nil hnew
  refine ⟨id, hactive, hnew, hids, houtputs, ?_, ?_, ?_, fun _ => ⟨herror, ?_⟩⟩
  · rw [hids]
    exact List.mem_append_right _ List.mem_cons_self
  · rw [Db.contents, hrows]
    rfl
  · rw [Db.Numbered, hrows]
    rfl
  · rw [hordinal, hrows]
    rfl

theorem addToHistory_untouched {lines : List UnicodeString} (h : t.activeCommandId ≠ some id)
    (hid : id ∈ t.db.ids) (mode : Bytes) : Untouched t (t.addToHistory mode lines) id := by
  cases hb : isBlank lines with
  | true =>
    rw [addToHistory_blank hb]
    exact .refl
  | false =>
    obtain ⟨_, rfl, hnew, -⟩ := addToHistory_new (t := t) hb mode
    have hadd : t.addToHistory mode lines = _ := if_neg (of_decide_eq_false hb)
    have hne : (finishActive t .interrupted).db.nextId ≠ id := fun heq => hnew (heq ▸ hid)
    refine (finishActive_untouched h .interrupted).trans ⟨?_, ?_⟩
    · rw [hadd]
      rfl
    · rw [hadd]
      simp [Db.status, List.find?_append, hne]

end History
end Raoui
