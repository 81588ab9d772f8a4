import Raoui.Sandbox.FileSystem

/-!
# Raoui.Sandbox.Landlock

The Landlock rules a run_r evaluation is confined by.

* `applyLandlock`: the rules, in the order they are added.
* `Secret`, `Covered`: the credential stores, and what a set of rules gives access to.
* `secrets_closed_iff`: when no rule reaches a credential store.
-/

namespace Raoui.Sandbox

def accessExecute : UInt64 := 1
def accessWriteFile : UInt64 := 2
def accessReadFile : UInt64 := 4
def accessReadDir : UInt64 := 8
def accessRemoveDir : UInt64 := 16
def accessRemoveFile : UInt64 := 32
def accessMakeChar : UInt64 := 64
def accessMakeDir : UInt64 := 128
def accessMakeReg : UInt64 := 256
def accessMakeSock : UInt64 := 512
def accessMakeFifo : UInt64 := 1024
def accessMakeBlock : UInt64 := 2048
def accessMakeSym : UInt64 := 4096
def accessTruncate : UInt64 := 16384

def fsReadRights : UInt64 := accessReadFile ||| accessReadDir

def fsWriteRights : UInt64 :=
  accessWriteFile ||| accessTruncate ||| accessRemoveFile ||| accessRemoveDir ||| accessMakeReg |||
    accessMakeDir ||| accessMakeSym ||| accessMakeFifo ||| accessMakeSock ||| accessMakeChar |||
    accessMakeBlock

/-- The rights that are valid on a file that is no directory. -/
def fsFileRights : UInt64 := accessReadFile ||| accessWriteFile ||| accessTruncate ||| accessExecute

def sysReadRoots : List Bytes :=
  [bytes "/usr", bytes "/lib", bytes "/lib64", bytes "/bin", bytes "/sbin", bytes "/etc",
    bytes "/dev", bytes "/tmp"]

def homeSecrets : List Bytes :=
  [bytes ".ssh", bytes ".aws", bytes ".gnupg", bytes ".config", bytes ".netrc", bytes ".Renviron",
    bytes ".Rhistory", bytes ".bash_history", bytes ".zsh_history", bytes ".docker", bytes ".kube"]

/-- The directory of `RUNR_SCRATCH_DIR` and its name there. -/
def scratchParent : Bytes := bytes "/tmp"

def scratchName : Name where
  text := bytes "raoui-sandbox"
  nonempty := by decide
  not_dot := by decide
  not_dotdot := by decide
  no_slash := by decide

def runrScratchDir : Bytes := scratchParent ++ 47 :: scratchName.text

def devNull : Bytes := bytes "/dev/null"

/-- `PATH_MAX`, the terminating byte included. -/
def pathMax : Nat := 4096

/-- `open` with `O_PATH`. -/
def openPath (fs : FileSystem) (path : Bytes) : Option Loc :=
  if path.length < pathMax then fs.resolve path else none

/-- `realpath`: it may fail for limits the tree does not show; what it returns is the canonical
path of the file. -/
structure Libc (fs : FileSystem) where
  realpath : Bytes → Option Bytes
  sound {path real : Bytes} : realpath path = some real →
    ∃ loc, fs.resolve path = some loc ∧ real = render loc

/-- The outcomes of the system calls. -/
structure Kernel where
  /-- The version `landlock_create_ruleset` reports. -/
  abi : Int
  createRuleset : Bool
  strdup : Bool
  mkdir : Bool
  setNoNewPrivs : Bool
  restrictSelf : Bool

/-- A rule of the ruleset: the access it allows beneath a place. -/
structure Grant where
  place : Loc
  access : UInt64

/-- `landlock_add_rule`: the access has to be handled by the ruleset, not empty, and valid for the
kind of file. -/
def addRule (handled : UInt64) (isDir : Bool) (access : UInt64) : Bool :=
  access ≠ 0 && access &&& handled = access && (isDir || access &&& fsFileRights = access)

section

variable (fs : FileSystem) (libc : Libc fs) (handled : UInt64)

/-- A path that cannot be opened is skipped. -/
def grantPath (path : Bytes) (access : UInt64) : List Grant :=
  match openPath fs path with
  | none => []
  | some loc =>
    let isDir := (fs.root.get loc).any Node.isDir
    let access := if isDir then access else access &&& fsFileRights
    if access = 0 then []
    else if addRule handled isDir access then [⟨loc, access⟩] else []

def isSecretName (name : Bytes) : Bool := homeSecrets.any (· = name)

/-- The names `readdir` returns, but for `.` and `..`. -/
def opendir (path : Bytes) : Option (List Name) :=
  (openPath fs path).bind fun loc =>
    match fs.root.get loc with
    | some (.dir entries) => some (entries.map Prod.fst)
    | _ => none

def grantHomeMinusSecrets (home : Bytes) (readAccess : UInt64) : List Grant :=
  match opendir fs home with
  | none => []
  | some names =>
    names.flatMap fun name =>
      if isSecretName name.text then []
      else
        let child := home ++ 47 :: name.text
        -- `snprintf` reports the length of the whole text
        if child.length ≥ pathMax then [] else grantPath fs handled child readAccess

variable {fs}

def samePath (a b : Bytes) : Bool :=
  match libc.realpath a, libc.realpath b with
  | some ra, some rb => ra = rb
  | _, _ => false

def isStrictAncestor (anc desc : Bytes) : Bool :=
  match libc.realpath anc, libc.realpath desc with
  | some ra, some rd =>
    ra ≠ [] && ra.isPrefixOf rd && (ra = [47] || rd[ra.length]? = some 47)
  | _, _ => false

def grantReadTree (path : Bytes) (home : Option Bytes) (readAccess : UInt64) : List Grant :=
  match home with
  | none | some [] => grantPath fs handled path readAccess
  | some (c :: cs) =>
    if samePath libc path (c :: cs) then grantHomeMinusSecrets fs handled (c :: cs) readAccess
    else if isStrictAncestor libc path (c :: cs) then []
    else grantPath fs handled path readAccess

end

/-- `strtok_r` on newlines. -/
def tokens (s : Bytes) : List Bytes := (splitOnChar newline s).filter (· ≠ [])

/-- The dynamic paths; a `strdup` that fails leaves none. -/
def dynamicPaths (kernel : Kernel) (dynReadPaths : Option Bytes) : List Bytes :=
  match dynReadPaths with
  | some paths => if kernel.strdup then tokens paths else []
  | none => []

def handledAccess (kernel : Kernel) : UInt64 :=
  let handled := fsReadRights ||| fsWriteRights
  if kernel.abi < 3 then handled &&& ~~~accessTruncate else handled

def readAccess (kernel : Kernel) : UInt64 := fsReadRights &&& handledAccess kernel

def writeAccess (kernel : Kernel) : UInt64 :=
  (fsReadRights ||| fsWriteRights) &&& handledAccess kernel

/-- The tree once the scratch directory was asked for. -/
def withScratch (kernel : Kernel) (fs : FileSystem) : FileSystem :=
  if kernel.mkdir then fs.mkdir scratchParent scratchName else fs

/-- The rules of the ruleset the process is restricted by, or the error message. -/
def applyLandlock (kernel : Kernel) {fs : FileSystem} (libc : Libc fs)
    (dynReadPaths home : Option Bytes) : Except Bytes (List Grant) :=
  if kernel.abi < 1 then .error (bytes "Landlock is unavailable on this kernel")
  else
    let handled := handledAccess kernel
    if ¬ kernel.createRuleset then .error (bytes "landlock_create_ruleset failed")
    else
      let roots := sysReadRoots.flatMap fun path =>
        grantReadTree libc handled path home (readAccess kernel)
      let dynamic := (dynamicPaths kernel dynReadPaths).flatMap fun path =>
        grantReadTree libc handled path home (readAccess kernel)
      let fs' := withScratch kernel fs
      let scratch := grantPath fs' handled runrScratchDir (writeAccess kernel)
      let null := grantPath fs' handled devNull (accessWriteFile &&& handled)
      if ¬ kernel.setNoNewPrivs then .error (bytes "prctl(PR_SET_NO_NEW_PRIVS) failed")
      else if ¬ kernel.restrictSelf then .error (bytes "landlock_restrict_self failed")
      else .ok (roots ++ dynamic ++ scratch ++ null)

/-- A credential store of the home directory at a place, or a file below one. -/
def Secret (home loc : Loc) : Prop :=
  ∃ name : Name, name.text ∈ homeSecrets ∧ home ++ [name] <+: loc

/-- A rule covers a file when its place is the file or one of its ancestors. -/
def Covered (grants : List Grant) (loc : Loc) : Prop := ∃ grant ∈ grants, grant.place <+: loc

/-- Whether the source can tell how the path lies to the home directory. -/
def Recognised {fs : FileSystem} (libc : Libc fs) (home path : Bytes) : Prop :=
  (libc.realpath home).isSome ∧ (libc.realpath path).isSome

/-- No dynamic path is a credential store or lies in one; with a store there, no path that is
written to is the home directory or above it, and each such path that is read is recognised. -/
structure Spared (kernel : Kernel) {fs : FileSystem} (libc : Libc fs) (dynReadPaths : Option Bytes)
    (home : Bytes) (homeLoc : Loc) : Prop where
  deep : ∀ path ∈ dynamicPaths kernel dynReadPaths, ∀ loc, openPath fs path = some loc →
    ¬ Secret homeLoc loc
  high : (∃ loc, fs.Exists loc ∧ Secret homeLoc loc) →
    ∀ path ∈ sysReadRoots ++ dynamicPaths kernel dynReadPaths, ∀ loc, openPath fs path = some loc →
      loc <+: homeLoc → Recognised libc home path
  written : (∃ loc, fs.Exists loc ∧ Secret homeLoc loc) →
    ∀ path ∈ [runrScratchDir, devNull], ∀ loc, openPath (withScratch kernel fs) path = some loc →
      ¬ loc <+: homeLoc

/-- What lies above a file of a store lies above the home directory, or in the store. -/
theorem prefix_of_secret {home loc file : Loc} (hloc : loc <+: file) (hfile : Secret home file) :
    loc <+: home ∨ Secret home loc := by
  obtain ⟨name, hname, hpre⟩ := hfile
  obtain hle | hge := List.prefix_or_prefix_of_prefix hloc hpre
  · obtain heq | hhome := List.prefix_concat_iff.mp hle
    · exact .inr ⟨name, hname, heq ▸ List.prefix_refl _⟩
    · exact .inl hhome
  · exact .inr ⟨name, hname, hge⟩

theorem not_prefix_of_secret {home loc : Loc} (h : Secret home loc) : ¬ loc <+: home := by
  obtain ⟨name, -, hpre⟩ := h
  intro hloc
  have hle := (hpre.trans hloc).length_le
  rw [List.length_append, List.length_singleton] at hle
  omega

theorem home_prefix_of_secret {home loc : Loc} (h : Secret home loc) : home <+: loc := by
  obtain ⟨name, -, hpre⟩ := h
  exact (List.prefix_append home [name]).trans hpre

theorem resolve_of_open {fs : FileSystem} {path : Bytes} {loc : Loc}
    (h : openPath fs path = some loc) : fs.resolve path = some loc := by
  rw [openPath] at h
  split at h
  · exact h
  · cases h

/-- The fixed paths lie in no credential store, wherever the home directory is. -/
theorem not_secret_of_fixed {fs : FileSystem} {path : Bytes} {loc home : Loc}
    (hpath : path ∈ sysReadRoots ++ [runrScratchDir, devNull]) (hopen : openPath fs path = some loc) :
    ¬ Secret home loc := by
  have hfixed : ∀ p ∈ sysReadRoots ++ [runrScratchDir, devNull], p.head? = some 47 ∧
      (∀ c ∈ splitOnChar 47 p, c ≠ bytes "." ∧ c ≠ bytes "..") ∧
        ∀ c ∈ splitOnChar 47 p, c ∉ homeSecrets := by
    decide +kernel
  obtain ⟨habs, hplain, hnone⟩ := hfixed path hpath
  rintro ⟨name, hname, hpre⟩
  have hmem : name.text ∈ loc.map Name.text :=
    List.mem_map_of_mem (hpre.subset (List.mem_append_right home List.mem_cons_self))
  rw [fs.resolve_texts habs hplain (resolve_of_open hopen)] at hmem
  exact hnone _ (List.mem_filter.mp hmem).1 hname

/-- The access of a rule is one the kernel takes, on a directory and masked on a file. -/
def Accepted (handled access : UInt64) : Prop :=
  addRule handled true access ∧ addRule handled false (access &&& fsFileRights)

theorem accepted_readAccess (kernel : Kernel) :
    Accepted (handledAccess kernel) (readAccess kernel) := by
  rw [readAccess, handledAccess]
  split <;> exact ⟨by decide, by decide⟩

theorem accepted_writeAccess (kernel : Kernel) :
    Accepted (handledAccess kernel) (writeAccess kernel) := by
  rw [writeAccess, handledAccess]
  split <;> exact ⟨by decide, by decide⟩

theorem accepted_writeFile (kernel : Kernel) :
    Accepted (handledAccess kernel) (accessWriteFile &&& handledAccess kernel) := by
  rw [handledAccess]
  split <;> exact ⟨by decide, by decide⟩

theorem addRule_ne_zero {handled access : UInt64} {isDir : Bool}
    (h : addRule handled isDir access) : access ≠ 0 := by
  rw [addRule, Bool.and_eq_true, Bool.and_eq_true] at h
  exact of_decide_eq_true h.1.1

/-- An accepted access gives one rule, at what the path names. -/
theorem grantPath_places (fs : FileSystem) {handled access : UInt64} (path : Bytes)
    (h : Accepted handled access) :
    (grantPath fs handled path access).map Grant.place = (openPath fs path).toList := by
  rw [grantPath]
  cases openPath fs path with
  | none => rfl
  | some loc =>
    dsimp only
    cases (fs.root.get loc).any Node.isDir with
    | true => rw [if_pos rfl, if_neg (addRule_ne_zero h.1), if_pos h.1]; rfl
    | false =>
      rw [if_neg Bool.false_ne_true, if_neg (addRule_ne_zero h.2), if_pos h.2]
      rfl

theorem covered_grantPath_iff {fs : FileSystem} {handled access : UInt64} {path : Bytes} {file : Loc}
    (h : Accepted handled access) :
    Covered (grantPath fs handled path access) file ↔
      ∃ loc, openPath fs path = some loc ∧ loc <+: file := by
  have hmap : Covered (grantPath fs handled path access) file ↔
      ∃ loc ∈ (grantPath fs handled path access).map Grant.place, loc <+: file := by
    constructor
    · rintro ⟨grant, hgrant, hpre⟩
      exact ⟨grant.place, List.mem_map_of_mem hgrant, hpre⟩
    · rintro ⟨loc, hloc, hpre⟩
      obtain ⟨grant, hgrant, rfl⟩ := List.mem_map.mp hloc
      exact ⟨grant, hgrant, hpre⟩
  rw [hmap, grantPath_places fs path h]
  simp

theorem covered_append {g₁ g₂ : List Grant} {file : Loc} :
    Covered (g₁ ++ g₂) file ↔ Covered g₁ file ∨ Covered g₂ file := by
  simp only [Covered, List.mem_append, or_and_right, exists_or]

theorem covered_flatMap {paths : List Bytes} {grant : Bytes → List Grant} {file : Loc} :
    Covered (paths.flatMap grant) file ↔ ∃ path ∈ paths, Covered (grant path) file := by
  simp only [Covered, List.mem_flatMap]
  grind

section

variable {fs : FileSystem} (libc : Libc fs) {handled access : UInt64}

/-- The children of the home directory that are granted are no credential stores. -/
theorem not_covered_grantHomeMinusSecrets {home : Bytes} {homeLoc file : Loc}
    (haccess : Accepted handled access) (hhome : fs.resolve home = some homeLoc)
    (hfile : Secret homeLoc file) :
    ¬ Covered (grantHomeMinusSecrets fs handled home access) file := by
  rintro ⟨grant, hgrant, hpre⟩
  rw [grantHomeMinusSecrets] at hgrant
  cases hdir : opendir fs home with
  | none =>
    rw [hdir] at hgrant
    cases hgrant
  | some names =>
    rw [hdir] at hgrant
    obtain ⟨name, -, hname⟩ := List.mem_flatMap.mp hgrant
    split at hname
    · cases hname
    · rename_i hplain
      dsimp only at hname
      split at hname
      · cases hname
      · obtain ⟨loc, hopen, hloc⟩ := (covered_grantPath_iff haccess).mp ⟨grant, hname, hpre⟩
        obtain rfl := fs.resolve_child hhome (resolve_of_open hopen)
        obtain ⟨secret, hsecret, hpre'⟩ := hfile
        have heq : homeLoc ++ [name] = homeLoc ++ [secret] :=
          List.IsPrefix.eq_of_length
            (List.prefix_of_prefix_length_le hloc hpre' (by simp)) (by simp)
        have hsame : name = secret := by simpa using heq
        subst hsame
        refine hplain (List.any_eq_true.mpr ⟨_, hsecret, by simp⟩)

theorem samePath_iff {a b : Bytes} {la lb : Loc} (ha : fs.resolve a = some la)
    (hb : fs.resolve b = some lb) :
    samePath libc a b ↔ (libc.realpath a).isSome ∧ (libc.realpath b).isSome ∧ la = lb := by
  rw [samePath]
  cases hra : libc.realpath a with
  | none => simp
  | some ra =>
    cases hrb : libc.realpath b with
    | none => simp
    | some rb =>
      obtain ⟨la', ha', rfl⟩ := libc.sound hra
      obtain ⟨lb', hb', rfl⟩ := libc.sound hrb
      obtain rfl : la = la' := Option.some.inj (ha.symm.trans ha')
      obtain rfl : lb = lb' := Option.some.inj (hb.symm.trans hb')
      simp [render_inj]

theorem isStrictAncestor_iff {a b : Bytes} {la lb : Loc} (ha : fs.resolve a = some la)
    (hb : fs.resolve b = some lb) (hne : la ≠ lb) :
    isStrictAncestor libc a b ↔
      (libc.realpath a).isSome ∧ (libc.realpath b).isSome ∧ la <+: lb := by
  rw [isStrictAncestor]
  cases hra : libc.realpath a with
  | none => simp
  | some ra =>
    cases hrb : libc.realpath b with
    | none => simp
    | some rb =>
      obtain ⟨la', ha', rfl⟩ := libc.sound hra
      obtain ⟨lb', hb', rfl⟩ := libc.sound hrb
      obtain rfl : la = la' := Option.some.inj (ha.symm.trans ha')
      obtain rfl : lb = lb' := Option.some.inj (hb.symm.trans hb')
      have hrender := render_ancestor_iff hne
      have hnil := render_ne_nil la
      simp only [Bool.and_eq_true, Bool.or_eq_true, decide_eq_true_eq, List.isPrefixOf_iff_prefix,
        Option.isSome_some, true_and, hnil, ne_eq, not_false_eq_true]
      exact hrender

theorem isStrictAncestor_real {a b : Bytes} (h : isStrictAncestor libc a b) :
    (libc.realpath a).isSome ∧ (libc.realpath b).isSome := by
  rw [isStrictAncestor] at h
  cases ha : libc.realpath a with
  | none => simp [ha] at h
  | some ra =>
    cases hb : libc.realpath b with
    | none => simp [ha, hb] at h
    | some rb => exact ⟨rfl, rfl⟩

/-- A read path covers a file of a store when it lies above it, unless it is seen to lie above the
home directory or to be it. -/
theorem covered_grantReadTree_iff {path home : Bytes} {homeLoc file : Loc}
    (haccess : Accepted handled access) (hhome : fs.resolve home = some homeLoc)
    (hfile : Secret homeLoc file) :
    Covered (grantReadTree libc handled path (some home) access) file ↔
      ∃ loc, openPath fs path = some loc ∧ loc <+: file ∧
        ¬ (loc <+: homeLoc ∧ Recognised libc home path) := by
  cases home with
  | nil => cases hhome
  | cons c cs =>
    rw [grantReadTree]
    split
    · -- the home directory itself: only its other children are granted
      rename_i hsame
      refine iff_of_false (not_covered_grantHomeMinusSecrets haccess hhome hfile) ?_
      rintro ⟨loc, hopen, -, hclear⟩
      obtain ⟨hpath, hreal, rfl⟩ :=
        (samePath_iff libc (resolve_of_open hopen) hhome).mp hsame
      exact hclear ⟨List.prefix_refl loc, hreal, hpath⟩
    · rename_i hsame
      split
      · rename_i hanc
        refine iff_of_false (fun ⟨grant, hgrant, _⟩ => nomatch hgrant) ?_
        rintro ⟨loc, hopen, -, hclear⟩
        by_cases heq : loc = homeLoc
        · subst heq
          obtain ⟨hreal, hreal'⟩ := isStrictAncestor_real libc hanc
          exact hclear ⟨List.prefix_refl loc, hreal', hreal⟩
        · obtain ⟨hpath, hreal, hpre⟩ :=
            (isStrictAncestor_iff libc (resolve_of_open hopen) hhome heq).mp hanc
          exact hclear ⟨hpre, hreal, hpath⟩
      · rename_i hanc
        rw [covered_grantPath_iff haccess]
        refine exists_congr fun loc => and_congr_right fun hopen => ?_
        refine (and_iff_left_of_imp fun _ => ?_).symm
        rintro ⟨hpre, hreal, hpath⟩
        by_cases heq : loc = homeLoc
        · exact hsame ((samePath_iff libc (resolve_of_open hopen) hhome).mpr ⟨hpath, hreal, heq⟩)
        · exact hanc
            ((isStrictAncestor_iff libc (resolve_of_open hopen) hhome heq).mpr ⟨hpath, hreal, hpre⟩)

end

section

variable (kernel : Kernel) {fs : FileSystem} (libc : Libc fs) {dynReadPaths : Option Bytes}

/-- What the rules give access to, path by path. -/
theorem covered_applyLandlock_iff {home : Bytes} {homeLoc file : Loc} {grants : List Grant}
    (hhome : fs.resolve home = some homeLoc)
    (happly : applyLandlock kernel libc dynReadPaths (some home) = .ok grants)
    (hfile : Secret homeLoc file) :
    Covered grants file ↔
      (∃ path ∈ sysReadRoots ++ dynamicPaths kernel dynReadPaths, ∃ loc,
        openPath fs path = some loc ∧ loc <+: file ∧
          ¬ (loc <+: homeLoc ∧ Recognised libc home path)) ∨
      ∃ path ∈ [runrScratchDir, devNull], ∃ loc,
        openPath (withScratch kernel fs) path = some loc ∧ loc <+: file := by
  have hread := accepted_readAccess kernel
  have hwrite := accepted_writeAccess kernel
  have hnull := accepted_writeFile kernel
  rw [applyLandlock] at happly
  split at happly
  · cases happly
  · dsimp only at happly
    split at happly
    · cases happly
    · split at happly
      · cases happly
      · split at happly
        · cases happly
        · rw [← Except.ok.inj happly, covered_append, covered_append, ← List.flatMap_append,
            covered_flatMap, covered_grantPath_iff hwrite, covered_grantPath_iff hnull, or_assoc]
          refine or_congr (exists_congr fun path => and_congr_right fun _ =>
            covered_grantReadTree_iff libc hread hhome hfile) ?_
          simp only [List.mem_cons, List.not_mem_nil, or_false, exists_eq_or_imp, exists_eq_left]

/-- No rule reaches a credential store exactly when the paths spare them. -/
theorem secrets_closed_iff {home : Bytes} {homeLoc : Loc} {grants : List Grant}
    (hhome : fs.resolve home = some homeLoc)
    (happly : applyLandlock kernel libc dynReadPaths (some home) = .ok grants) :
    (∀ file, fs.Exists file → Secret homeLoc file → ¬ Covered grants file) ↔
      Spared kernel libc dynReadPaths home homeLoc := by
  constructor
  · intro hclosed
    refine ⟨fun path hpath loc hopen hsecret => ?_, fun ⟨file, hexists, hsecret⟩ path hpath loc
      hopen hpre => ?_, fun ⟨file, hexists, hsecret⟩ path hpath loc hopen hpre => ?_⟩
    · refine hclosed loc (fs.resolve_exists (resolve_of_open hopen)) hsecret
        ((covered_applyLandlock_iff kernel libc hhome happly hsecret).mpr (.inl ?_))
      exact ⟨path, List.mem_append_right _ hpath, loc, hopen, List.prefix_refl loc,
        fun h => not_prefix_of_secret hsecret h.1⟩
    · refine Classical.byContradiction fun hunseen => hclosed file hexists hsecret
        ((covered_applyLandlock_iff kernel libc hhome happly hsecret).mpr (.inl ?_))
      exact ⟨path, hpath, loc, hopen, hpre.trans (home_prefix_of_secret hsecret),
        fun h => hunseen h.2⟩
    · refine hclosed file hexists hsecret
        ((covered_applyLandlock_iff kernel libc hhome happly hsecret).mpr (.inr ?_))
      exact ⟨path, hpath, loc, hopen, hpre.trans (home_prefix_of_secret hsecret)⟩
  · intro hspared file hexists hsecret hcovered
    obtain ⟨path, hpath, loc, hopen, hpre, hclear⟩ | ⟨path, hpath, loc, hopen, hpre⟩ :=
      (covered_applyLandlock_iff kernel libc hhome happly hsecret).mp hcovered
    · obtain hhigh | hdeep := prefix_of_secret hpre hsecret
      · exact hclear ⟨hhigh, hspared.high ⟨file, hexists, hsecret⟩ path hpath loc hopen hhigh⟩
      · obtain hroot | hdyn := List.mem_append.mp hpath
        · exact not_secret_of_fixed (List.mem_append_left _ hroot) hopen hdeep
        · exact hspared.deep path hdyn loc hopen hdeep
    · obtain hhigh | hdeep := prefix_of_secret hpre hsecret
      · exact hspared.written ⟨file, hexists, hsecret⟩ path hpath loc hopen hhigh
      · exact not_secret_of_fixed (List.mem_append_right _ hpath) hopen hdeep

end

/-- `realpath` where no limit is hit. -/
def canonical (fs : FileSystem) : Libc fs where
  realpath path := (fs.resolve path).map render
  sound h := by
    obtain ⟨loc, hloc, hreal⟩ := Option.map_eq_some_iff.mp h
    exact ⟨loc, hloc, hreal.symm⟩

def supported : Kernel := ⟨3, true, true, true, true, true⟩

def homeName : Name := ⟨bytes "home", by decide, by decide, by decide, by decide⟩
def userName : Name := ⟨bytes "u", by decide, by decide, by decide, by decide⟩
def sshName : Name := ⟨bytes ".ssh", by decide, by decide, by decide, by decide⟩
def keyName : Name := ⟨bytes "id_rsa", by decide, by decide, by decide, by decide⟩

/-- A user's home directory with a key below `.ssh`. -/
def homeTree : FileSystem where
  root := .dir [(homeName, .dir [(userName, .dir [(sshName, .dir [(keyName, .file)])])])]
  cwd := []
  cwd_dir := ⟨_, rfl, rfl⟩

theorem secrets_closed_iff_home :
    ∃ homeLoc grants, homeTree.resolve (bytes "/home/u") = some homeLoc ∧
      applyLandlock supported (canonical homeTree) (some (bytes "/home/u")) (some (bytes "/home/u")) =
        .ok grants ∧
      ((∀ file, homeTree.Exists file → Secret homeLoc file → ¬ Covered grants file) ↔
        Spared supported (canonical homeTree) (some (bytes "/home/u")) (bytes "/home/u") homeLoc) :=
  ⟨_, _, rfl, rfl, secrets_closed_iff supported (canonical homeTree) rfl rfl⟩

/-- R working in `~/.ssh`: the store itself is granted. -/
theorem working_in_secret_exposed :
    ∃ homeLoc grants file, homeTree.resolve (bytes "/home/u") = some homeLoc ∧
      applyLandlock supported (canonical homeTree) (some (bytes "/home/u/.ssh"))
        (some (bytes "/home/u")) = .ok grants ∧
      homeTree.Exists file ∧ Secret homeLoc file ∧ Covered grants file := by
  refine ⟨[homeName, userName], [⟨[homeName, userName, sshName], readAccess supported⟩],
    [homeName, userName, sshName, keyName], rfl, rfl, rfl, ?_, ?_⟩
  · exact ⟨sshName, by decide, [keyName], rfl⟩
  · exact ⟨_, List.mem_singleton_self _, [keyName], rfl⟩

end Raoui.Sandbox
