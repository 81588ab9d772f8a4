import Raoui.Lib.Lisp
import Raoui.Sandbox.Landlock

/-!
# Raoui.Sandbox.Seatbelt

The Seatbelt profile a run_r evaluation is confined by on macOS, `build_runr_profile` of
`c_ffi/load_r.c`. The profile is a text, and most of the paths in it are not the program's own: no
path can end its string and add a rule.

* `allows`: what a profile allows; the last rule that applies wins.
* `buildRunrProfile_reads`: the text is read as the rules it was built from.
* `buildRunrProfile_confines`: what these rules allow.
-/

namespace Raoui.Seatbelt

open Lisp (Expr Reads IsName escape)
open Sandbox (tokens)

def roots : List Bytes :=
  [bytes "/usr", bytes "/System", bytes "/Library", bytes "/opt/homebrew", bytes "/private/var",
    bytes "/etc", bytes "/private/etc", bytes "/dev"]

def secrets : List Bytes :=
  [bytes "/.ssh", bytes "/.aws", bytes "/.gnupg", bytes "/.config", bytes "/.netrc",
    bytes "/.Renviron", bytes "/.Rhistory", bytes "/.bash_history", bytes "/.zsh_history",
    bytes "/.docker", bytes "/.kube", bytes "/Library/Keychains"]

/-- The size of the buffer that `snprintf` writes the path of a credential store into. -/
def pathSize : Nat := 4096

def secretPath (home secret : Bytes) : Bytes := (home ++ secret).take (pathSize - 1)

/-- The paths of the session; there are none where `strdup` fails. -/
def dynamicPaths (dyn : Option Bytes) : List Bytes :=
  match dyn with
  | some paths => tokens paths
  | none => []

def sbPutSubpath (path : Bytes) : Bytes :=
  bytes "  (subpath \"" ++ escape path ++ bytes "\")\n"

/-- The credential stores under the home directory, which are closed last. -/
def secretDeny (home : Option Bytes) : Bytes :=
  match home with
  | some home =>
    if home = [] then []
    else
      bytes "(deny file-read*\n" ++
        secrets.flatMap (fun secret => sbPutSubpath (secretPath home secret)) ++ bytes ")\n"
  | none => []

def buildRunrProfile (dyn home : Option Bytes) : Bytes :=
  bytes "(version 1)\n(allow default)\n" ++
    (bytes "(deny file-write*)\n" ++
      bytes "(allow file-write* (subpath \"/private/tmp/raoui-sandbox\") " ++
      bytes "(literal \"/dev/null\"))\n") ++
    bytes "(deny network*)\n(deny process-exec*)\n" ++
    bytes "(deny file-read*)\n(allow file-read*\n" ++
    roots.flatMap sbPutSubpath ++
    (dynamicPaths dyn).flatMap sbPutSubpath ++
    bytes ")\n" ++
    secretDeny home

/-! ## Profiles -/

inductive Filter where
  | subpath (path : Bytes)
  | literal (path : Bytes)
  deriving DecidableEq, Repr

inductive Operation where
  | all
  | fileRead
  | fileWrite
  | network
  | processExec
  deriving DecidableEq, Repr

structure Rule where
  allow : Bool
  operation : Operation
  filters : List Filter
  deriving DecidableEq, Repr

/-- What a process may ask the kernel for. -/
inductive Access where
  | read (path : Bytes)
  | write (path : Bytes)
  | network
  | exec (path : Bytes)
  deriving DecidableEq, Repr

def Access.path? : Access → Option Bytes
  | .read path => some path
  | .write path => some path
  | .network => none
  | .exec path => some path

/-- The place itself and everything below it. -/
def Filter.covers : Filter → Bytes → Bool
  | .subpath place, path =>
    place.isPrefixOf path &&
      (path.length = place.length || place.getLast? = some 47 || path[place.length]? = some 47)
  | .literal place, path => path = place

def Operation.includes : Operation → Access → Bool
  | .all, _ => true
  | .fileRead, .read _ => true
  | .fileWrite, .write _ => true
  | .network, .network => true
  | .processExec, .exec _ => true
  | _, _ => false

/-- A rule without filters is about every path. -/
def Rule.applies (rule : Rule) (a : Access) : Bool :=
  rule.operation.includes a &&
    (rule.filters.isEmpty || a.path?.any fun path => rule.filters.any fun f => f.covers path)

def allows (rules : List Rule) (a : Access) : Bool :=
  rules.foldl (fun verdict rule => if rule.applies a then rule.allow else verdict) false

theorem allows_concat (rules : List Rule) (rule : Rule) (a : Access) :
    allows (rules ++ [rule]) a = if rule.applies a then rule.allow else allows rules a :=
  List.foldl_concat ..

/-! ## The text of a profile -/

def verdictName (allow : Bool) : Bytes := if allow then bytes "allow" else bytes "deny"

def Operation.name : Operation → Bytes
  | .all => bytes "default"
  | .fileRead => bytes "file-read*"
  | .fileWrite => bytes "file-write*"
  | .network => bytes "network*"
  | .processExec => bytes "process-exec*"

def Filter.toExpr : Filter → Expr
  | .subpath path => .list [.atom (bytes "subpath"), .string path]
  | .literal path => .list [.atom (bytes "literal"), .string path]

def Rule.toExpr (rule : Rule) : Expr :=
  .list (.atom (verdictName rule.allow) :: .atom rule.operation.name ::
    rule.filters.map Filter.toExpr)

def Filter.ofExpr : Expr → Option Filter
  | .list [.atom kind, .string path] =>
    if kind = bytes "subpath" then some (.subpath path)
    else if kind = bytes "literal" then some (.literal path)
    else none
  | _ => none

def operations : List Operation := [.all, .fileRead, .fileWrite, .network, .processExec]

theorem mem_operations (o : Operation) : o ∈ operations := by
  cases o <;> decide

def Operation.ofName (name : Bytes) : Option Operation := operations.find? fun o => o.name = name

def Rule.ofExpr : Expr → Option Rule
  | .list (.atom verdict :: .atom operation :: filters) => do
    let allow ← [true, false].find? fun allow => verdictName allow = verdict
    return ⟨allow, ← Operation.ofName operation, ← filters.mapM Filter.ofExpr⟩
  | _ => none

/-- The rules of a profile; the version comes before them. -/
def readProfile (s : Bytes) : Option (List Rule) :=
  match Lisp.read s with
  | some (.list [.atom version, .atom number] :: rules) =>
    if version = bytes "version" ∧ number = bytes "1" then rules.mapM Rule.ofExpr else none
  | _ => none

theorem literal_ne_subpath : bytes "literal" ≠ bytes "subpath" := by decide +kernel

theorem Filter.ofExpr_toExpr (f : Filter) : Filter.ofExpr f.toExpr = some f := by
  cases f with
  | subpath path => rw [toExpr, ofExpr, if_pos rfl]
  | literal path =>
    rw [toExpr, ofExpr, if_neg literal_ne_subpath, if_pos rfl]

theorem mapM_map_eq {α β : Type} {f : α → β} {g : β → Option α} (h : ∀ x, g (f x) = some x)
    (l : List α) : (l.map f).mapM g = some l := by
  induction l with
  | nil => rfl
  | cons x l ih => rw [List.map_cons, List.mapM_cons, h, ih]; rfl

theorem Operation.ofName_name (o : Operation) : Operation.ofName o.name = some o := by
  have hnames : ∀ o ∈ operations, Operation.ofName o.name = some o := by decide +kernel
  exact hnames o (mem_operations o)

theorem verdict_of_name : ∀ allow : Bool,
    [true, false].find? (fun b => verdictName b = verdictName allow) = some allow := by
  decide +kernel

theorem Rule.ofExpr_toExpr (rule : Rule) : Rule.ofExpr rule.toExpr = some rule := by
  rw [Rule.toExpr, Rule.ofExpr, verdict_of_name, Operation.ofName_name,
    mapM_map_eq Filter.ofExpr_toExpr]
  rfl

/-! ## Reading it -/

def line (head arg : Bytes) : Bytes := 40 :: (head ++ [32] ++ arg ++ [41]) ++ [10]

/-- A list with more behind its first two atoms. -/
def clause (head arg : Bytes) (c : UInt8) (body : Bytes) : Bytes :=
  40 :: (head ++ [32] ++ (arg ++ [c] ++ body) ++ [41]) ++ [10]

/-- The names that a profile is written with. -/
theorem isName_names : ∀ name ∈ bytes "version" :: bytes "1" :: bytes "subpath" :: bytes "literal" ::
    verdictName true :: verdictName false :: operations.map Operation.name, IsName name := by
  decide +kernel

theorem isName_version : IsName (bytes "version") := isName_names _ (.head _)

theorem isName_one : IsName (bytes "1") := isName_names _ (.tail _ (.head _))

theorem isName_subpath : IsName (bytes "subpath") := isName_names _ (.tail _ (.tail _ (.head _)))

theorem isName_literal : IsName (bytes "literal") :=
  isName_names _ (.tail _ (.tail _ (.tail _ (.head _))))

theorem isName_verdict (allow : Bool) : IsName (verdictName allow) := by
  cases allow with
  | true => exact isName_names _ (.tail _ (.tail _ (.tail _ (.tail _ (.head _)))))
  | false => exact isName_names _ (.tail _ (.tail _ (.tail _ (.tail _ (.tail _ (.head _))))))

theorem isName_operation (o : Operation) : IsName o.name :=
  isName_names _ (.tail _ (.tail _ (.tail _ (.tail _ (.tail _ (.tail _
    (List.mem_map_of_mem (mem_operations o))))))))

def filterText (kind path : Bytes) : Bytes :=
  40 :: (kind ++ [32] ++ (34 :: (escape path ++ [34])) ++ [41])

theorem reads_line {head arg : Bytes} (hhead : IsName head) (harg : IsName arg) :
    Reads (line head arg) [.list [.atom head, .atom arg]] :=
  ((Lisp.ends_name harg).form hhead rfl).append (Lisp.reads_blank rfl)

theorem reads_plain (allow : Bool) (o : Operation) :
    Reads (line (verdictName allow) o.name) [Rule.toExpr ⟨allow, o, []⟩] :=
  reads_line (isName_verdict allow) (isName_operation o)

theorem reads_clause (allow : Bool) (o : Operation) {c : UInt8} (hc : Lisp.isBlank c = true)
    {body : Bytes} {filters : List Filter} (hbody : Reads body (filters.map Filter.toExpr)) :
    Reads (clause (verdictName allow) o.name c body) [Rule.toExpr ⟨allow, o, filters⟩] :=
  ((((Lisp.ends_name (isName_operation o)).blank hc).append hbody).ends.form (isName_verdict allow)
    rfl).append (Lisp.reads_blank rfl)

theorem reads_filter {kind : Bytes} (hkind : IsName kind) (path : Bytes) :
    Reads (filterText kind path) [.list [.atom kind, .string path]] :=
  (Lisp.reads_quoted path).ends.form hkind rfl

def scratchDir : Bytes := bytes "/private/tmp/raoui-sandbox"

def devNull : Bytes := bytes "/dev/null"

/-- The pieces of the text that no path is put into. -/
theorem texts :
    bytes "  (subpath \"" = [32] ++ [32] ++ (40 :: (bytes "subpath" ++ [32] ++ [34])) ∧
    bytes "\")\n" = [34] ++ [41] ++ [10] ∧
    bytes ")\n" = [41] ++ [10] ∧
    bytes "(version 1)\n(allow default)\n" =
      line (bytes "version") (bytes "1") ++ line (verdictName true) Operation.all.name ∧
    bytes "(deny file-write*)\n" ++
      bytes "(allow file-write* (subpath \"/private/tmp/raoui-sandbox\") " ++
      bytes "(literal \"/dev/null\"))\n" =
        line (verdictName false) Operation.fileWrite.name ++
          clause (verdictName true) Operation.fileWrite.name 32
            (filterText (bytes "subpath") scratchDir ++ [32] ++
              filterText (bytes "literal") devNull) ∧
    bytes "(deny network*)\n(deny process-exec*)\n" =
      line (verdictName false) Operation.network.name ++
        line (verdictName false) Operation.processExec.name ∧
    bytes "(deny file-read*)\n(allow file-read*\n" =
      line (verdictName false) Operation.fileRead.name ++
        (40 :: (verdictName true ++ [32] ++ (Operation.fileRead.name ++ [10]))) ∧
    bytes "(deny file-read*\n" =
      40 :: (verdictName false ++ [32] ++ (Operation.fileRead.name ++ [10])) := by
  decide +kernel

theorem reads_sbPutSubpath (path : Bytes) :
    Reads (sbPutSubpath path) [Filter.toExpr (.subpath path)] := by
  have htext : sbPutSubpath path = [32] ++ ([32] ++ (filterText (bytes "subpath") path ++ [10])) := by
    rw [sbPutSubpath, texts.1, texts.2.1, filterText]
    simp only [List.append_assoc, List.cons_append, List.nil_append]
  rw [htext]
  exact (Lisp.reads_blank rfl).append ((Lisp.reads_blank rfl).append
    ((reads_filter isName_subpath path).append (Lisp.reads_blank rfl)))

theorem reads_subpaths (paths : List Bytes) :
    Reads (paths.flatMap sbPutSubpath) ((paths.map Filter.subpath).map Filter.toExpr) := by
  induction paths with
  | nil => exact Lisp.reads_nil
  | cons path paths ih => exact (reads_sbPutSubpath path).append ih

/-! ## The profile of an evaluation -/

/-- The paths that are closed again. -/
def credentialPaths (home : Option Bytes) : List Bytes :=
  match home with
  | some home => if home = [] then [] else secrets.map (secretPath home)
  | none => []

def openRules (dyn : Option Bytes) : List Rule :=
  [⟨true, .all, []⟩, ⟨false, .fileWrite, []⟩,
    ⟨true, .fileWrite, [.subpath scratchDir, .literal devNull]⟩, ⟨false, .network, []⟩,
    ⟨false, .processExec, []⟩, ⟨false, .fileRead, []⟩,
    ⟨true, .fileRead, (roots ++ dynamicPaths dyn).map Filter.subpath⟩]

def closingRules (home : Option Bytes) : List Rule :=
  if credentialPaths home = [] then []
  else [⟨false, .fileRead, (credentialPaths home).map Filter.subpath⟩]

theorem reads_writable : Reads
    (bytes "(deny file-write*)\n" ++
      bytes "(allow file-write* (subpath \"/private/tmp/raoui-sandbox\") " ++
      bytes "(literal \"/dev/null\"))\n")
    ([⟨false, .fileWrite, []⟩, ⟨true, .fileWrite, [.subpath scratchDir, .literal devNull]⟩].map
      Rule.toExpr) := by
  have hfilters : Reads
      (filterText (bytes "subpath") scratchDir ++ [32] ++ filterText (bytes "literal") devNull)
      ([Filter.subpath scratchDir, .literal devNull].map Filter.toExpr) :=
    ((reads_filter isName_subpath scratchDir).append (Lisp.reads_blank rfl)).append
      (reads_filter isName_literal devNull)
  rw [texts.2.2.2.2.1]
  exact (reads_plain false .fileWrite).append (reads_clause true .fileWrite rfl hfilters)

theorem reads_open (dyn : Option Bytes) : Reads
    (bytes "(deny file-read*)\n(allow file-read*\n" ++ roots.flatMap sbPutSubpath ++
      (dynamicPaths dyn).flatMap sbPutSubpath ++ bytes ")\n")
    ([⟨false, .fileRead, []⟩, ⟨true, .fileRead, (roots ++ dynamicPaths dyn).map Filter.subpath⟩].map
      Rule.toExpr) := by
  obtain ⟨-, -, hclose, -, -, -, hopen, -⟩ := texts
  have htext : bytes "(deny file-read*)\n(allow file-read*\n" ++ roots.flatMap sbPutSubpath ++
      (dynamicPaths dyn).flatMap sbPutSubpath ++ bytes ")\n" =
    line (verdictName false) Operation.fileRead.name ++
      clause (verdictName true) Operation.fileRead.name 10
        ((roots ++ dynamicPaths dyn).flatMap sbPutSubpath) := by
    rw [hopen, hclose, clause, List.flatMap_append]
    simp only [List.append_assoc, List.cons_append]
  rw [htext]
  exact (reads_plain false .fileRead).append (reads_clause true .fileRead rfl (reads_subpaths _))

theorem reads_closing (home : Option Bytes) :
    Reads (secretDeny home) ((closingRules home).map Rule.toExpr) := by
  cases home with
  | none => exact Lisp.reads_nil
  | some home =>
    by_cases hempty : home = []
    · subst hempty
      exact Lisp.reads_nil
    · obtain ⟨-, -, hclose, -, -, -, -, hopen⟩ := texts
      have htext : bytes "(deny file-read*\n" ++
          secrets.flatMap (fun secret => sbPutSubpath (secretPath home secret)) ++ bytes ")\n" =
        clause (verdictName false) Operation.fileRead.name 10
          ((secrets.map (secretPath home)).flatMap sbPutSubpath) := by
        rw [hopen, hclose, clause, List.flatMap_map]
        simp only [List.append_assoc, List.cons_append]
      have hpaths : credentialPaths (some home) = secrets.map (secretPath home) := if_neg hempty
      have hsome : credentialPaths (some home) ≠ [] := by
        rw [hpaths]
        exact List.cons_ne_nil _ _
      rw [closingRules, if_neg hsome, hpaths]
      rw [secretDeny, if_neg hempty, htext]
      exact reads_clause false .fileRead rfl (reads_subpaths _)

theorem buildRunrProfile_reads (dyn home : Option Bytes) :
    readProfile (buildRunrProfile dyn home) = some (openRules dyn ++ closingRules home) := by
  obtain ⟨-, -, -, hfirst, -, hthird, -, -⟩ := texts
  have hversion : Reads (line (bytes "version") (bytes "1"))
      [.list [.atom (bytes "version"), .atom (bytes "1")]] :=
    reads_line isName_version isName_one
  have hopen := (((hversion.append (reads_plain true .all)).append reads_writable).append
    ((reads_plain false .network).append (reads_plain false .processExec))).append (reads_open dyn)
  rw [← hfirst, ← hthird] at hopen
  have hreads : Reads (buildRunrProfile dyn home)
      (.list [.atom (bytes "version"), .atom (bytes "1")] ::
        (openRules dyn ++ closingRules home).map Rule.toExpr) := by
    have hall := hopen.append (reads_closing home)
    rw [buildRunrProfile]
    simp only [List.append_assoc] at hall ⊢
    exact hall
  rw [readProfile, Lisp.read_of_reads hreads]
  exact (if_pos ⟨rfl, rfl⟩).trans (mapM_map_eq Rule.ofExpr_toExpr _)

/-! ## What it allows -/

theorem any_subpaths (paths : List Bytes) (path : Bytes) :
    ((paths.map Filter.subpath).any fun f => f.covers path) = true ↔
      ∃ p ∈ paths, (Filter.subpath p).covers path = true := by
  rw [List.any_map, List.any_eq_true]
  rfl

theorem allows_closing_of_not_read (rules : List Rule) (home : Option Bytes) {a : Access}
    (ha : Operation.fileRead.includes a = false) :
    allows (rules ++ closingRules home) a = allows rules a := by
  unfold closingRules
  split
  · rw [List.append_nil]
  · rw [allows_concat, Rule.applies, ha, Bool.false_and]
    rfl

theorem allows_closing_read (rules : List Rule) (home : Option Bytes) (path : Bytes) :
    allows (rules ++ closingRules home) (.read path) = true ↔
      allows rules (.read path) = true ∧
        ∀ p ∈ credentialPaths home, (Filter.subpath p).covers path = false := by
  unfold closingRules
  split
  · rename_i hnone
    rw [List.append_nil, hnone]
    exact (and_iff_left (List.forall_mem_nil _)).symm
  · rename_i hsome
    have happlies : Rule.applies ⟨false, .fileRead, (credentialPaths home).map Filter.subpath⟩
        (.read path) = ((credentialPaths home).map Filter.subpath).any fun f => f.covers path := by
      cases hpaths : credentialPaths home with
      | nil => exact absurd hpaths hsome
      | cons p ps => rfl
    rw [allows_concat, happlies]
    by_cases hcovered :
        (((credentialPaths home).map Filter.subpath).any fun f => f.covers path) = true
    · rw [if_pos hcovered]
      obtain ⟨p, hp, hcovers⟩ := (any_subpaths _ _).mp hcovered
      exact ⟨fun h => absurd h Bool.false_ne_true,
        fun h => absurd ((h.2 p hp).symm.trans hcovers) Bool.false_ne_true⟩
    · rw [if_neg hcovered]
      refine (and_iff_left fun p hp => ?_).symm
      exact Bool.eq_false_iff.mpr fun hcovers => hcovered ((any_subpaths _ _).mpr ⟨p, hp, hcovers⟩)

theorem ite_true_false (b : Bool) : (if b = true then true else false) = b := by
  cases b <;> rfl

theorem allows_open_read (dyn : Option Bytes) (path : Bytes) :
    allows (openRules dyn) (.read path) =
      ((roots ++ dynamicPaths dyn).map Filter.subpath).any fun f => f.covers path :=
  ite_true_false _

theorem allows_open_write (dyn : Option Bytes) (path : Bytes) :
    allows (openRules dyn) (.write path) =
      [Filter.subpath scratchDir, .literal devNull].any fun f => f.covers path :=
  ite_true_false _

/-- What an evaluation may do, whatever the paths of the session and the home directory are. -/
theorem buildRunrProfile_confines (dyn home : Option Bytes) :
    ∃ rules, readProfile (buildRunrProfile dyn home) = some rules ∧
      (∀ path, allows rules (.read path) = true ↔
        (∃ p ∈ roots ++ dynamicPaths dyn, (Filter.subpath p).covers path = true) ∧
          ∀ p ∈ credentialPaths home, (Filter.subpath p).covers path = false) ∧
      (∀ path, allows rules (.write path) = true ↔
        (Filter.subpath scratchDir).covers path = true ∨ path = devNull) ∧
      allows rules .network = false ∧ ∀ path, allows rules (.exec path) = false := by
  refine ⟨_, buildRunrProfile_reads dyn home, fun path => ?_, fun path => ?_, ?_, fun path => ?_⟩
  · rw [allows_closing_read]
    rw [allows_open_read, any_subpaths]
  · rw [allows_closing_of_not_read _ home rfl, allows_open_write, List.any_cons, List.any_cons,
      List.any_nil, Bool.or_false, Bool.or_eq_true]
    exact or_congr_right decide_eq_true_iff
  · rw [allows_closing_of_not_read _ home rfl]
    rfl
  · rw [allows_closing_of_not_read _ home rfl]
    rfl

end Raoui.Seatbelt
