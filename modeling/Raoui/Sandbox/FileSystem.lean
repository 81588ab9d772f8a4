import Raoui.Base

/-!
# Raoui.Sandbox.FileSystem

A file system without symbolic links, and how the kernel finds the file a path names.

* `Name`, `Node`, `Loc`: the tree, and the place of a file in it.
* `FileSystem.resolve`: path lookup, with `.` and `..`; `resolve_exists`, `resolve_child`.
* `render`: the canonical path of a place; `render_inj`, `render_ancestor_iff`.
-/

namespace Raoui

/-- A file name of a directory entry. -/
structure Name where
  text : Bytes
  nonempty : text ≠ []
  not_dot : text ≠ bytes "."
  not_dotdot : text ≠ bytes ".."
  no_slash : 47 ∉ text
  deriving DecidableEq

theorem Name.ext_text {n m : Name} (h : n.text = m.text) : n = m := by
  cases n
  cases m
  cases h
  rfl

/-- A place in a tree, from the root on. -/
abbrev Loc := List Name

inductive Node where
  /-- Anything but a directory. -/
  | file
  | dir (entries : List (Name × Node))

namespace Node

def isDir : Node → Bool
  | .file => false
  | .dir _ => true

/-- The entry of this name, in a directory. -/
def entry (c : Bytes) : Node → Option (Name × Node)
  | .file => none
  | .dir entries => entries.find? fun e => e.1.text = c

/-- The file at a place. -/
def get : Node → Loc → Option Node
  | node, [] => some node
  | node, name :: rest => (node.entry name.text).bind fun e => e.2.get rest

/-- Adds an empty directory under a name at a place, unless the name is taken. -/
def makeDir (name : Name) : Loc → Node → Node
  | _, .file => .file
  | [], .dir entries =>
    if entries.any fun e => e.1.text = name.text then .dir entries
    else .dir (entries ++ [(name, .dir [])])
  | next :: rest, .dir entries =>
    .dir (entries.map fun e => if e.1.text = next.text then (e.1, makeDir name rest e.2) else e)

theorem entry_text {node : Node} {c : Bytes} {e : Name × Node} (h : node.entry c = some e) :
    e.1.text = c := by
  cases node with
  | file => cases h
  | dir entries => simpa using List.find?_some h

theorem get_append (node : Node) (l l' : Loc) :
    node.get (l ++ l') = (node.get l).bind fun n => n.get l' := by
  induction l generalizing node with
  | nil => rfl
  | cons name rest ih =>
    show (node.entry name.text).bind (fun e => e.2.get (rest ++ l')) =
      ((node.entry name.text).bind fun e => e.2.get rest).bind fun n => n.get l'
    cases node.entry name.text with
    | none => rfl
    | some e => exact ih e.2

/-- What lies above a file exists. -/
theorem get_isSome_of_isPrefix {node : Node} {l l' : Loc} (hl : l <+: l')
    (h : (node.get l').isSome) : (node.get l).isSome := by
  obtain ⟨rest, rfl⟩ := hl
  rw [get_append] at h
  cases hget : node.get l with
  | none =>
    rw [hget] at h
    cases h
  | some n => rfl

theorem makeDir_isDir (name : Name) (parent : Loc) (node : Node) :
    (makeDir name parent node).isDir = node.isDir := by
  cases node with
  | file =>
    cases parent with
    | nil => rfl
    | cons next rest => rfl
  | dir entries =>
    cases parent with
    | nil =>
      rw [makeDir]
      split <;> rfl
    | cons next rest => rfl

theorem entry_makeDir (name : Name) (parent : Loc) {node : Node} {c : Bytes} {e : Name × Node}
    (h : node.entry c = some e) :
    ∃ parent', (makeDir name parent node).entry c = some e ∨
      (makeDir name parent node).entry c = some (e.1, makeDir name parent' e.2) := by
  cases node with
  | file => cases h
  | dir entries =>
    cases parent with
    | nil =>
      refine ⟨[], .inl ?_⟩
      rw [makeDir]
      split
      · exact h
      · rw [entry, List.find?_append, show entries.find? _ = some e from h]
        rfl
    | cons next rest =>
      refine ⟨rest, ?_⟩
      have hfind : (makeDir name (next :: rest) (.dir entries)).entry c = (entries.find? fun e =>
          decide (e.1.text = c)).map fun e =>
            if e.1.text = next.text then (e.1, makeDir name rest e.2) else e := by
        rw [makeDir, entry, List.find?_map]
        congr 2
        funext e
        show decide ((ite _ _ _ : Name × Node).1.text = c) = _
        split <;> rfl
      rw [hfind, show entries.find? _ = some e from h, Option.map_some]
      split
      · exact .inr rfl
      · exact .inl rfl

/-- A new directory moves and changes no other file. -/
theorem get_makeDir (name : Name) (parent : Loc) {node n : Node} {l : Loc}
    (h : node.get l = some n) :
    ∃ n', (makeDir name parent node).get l = some n' ∧ n'.isDir = n.isDir := by
  induction l generalizing node parent with
  | nil =>
    obtain rfl : node = n := Option.some.inj h
    exact ⟨_, rfl, makeDir_isDir name parent node⟩
  | cons next rest ih =>
    obtain ⟨e, he, hrest⟩ := Option.bind_eq_some_iff.mp h
    obtain ⟨parent', hsame | hdeep⟩ := entry_makeDir name parent he
    · exact ⟨n, by rw [get, hsame]; exact hrest, rfl⟩
    · obtain ⟨n', hn', hdir⟩ := ih parent' hrest
      exact ⟨n', by rw [get, hdeep]; exact hn', hdir⟩

end Node

/-- A tree, and the working directory of the process. -/
structure FileSystem where
  root : Node
  cwd : Loc
  cwd_dir : ∃ node, root.get cwd = some node ∧ node.isDir = true

namespace FileSystem

variable (fs : FileSystem)

def Exists (loc : Loc) : Prop := (fs.root.get loc).isSome

/-- Follows the components of a path from a place on; each is looked up in a directory, and one
that is followed by a slash is one. -/
def walk : Loc → List Bytes → Option Loc
  | loc, [] => some loc
  | loc, c :: cs =>
    match fs.root.get loc with
    | none => none
    | some node =>
      if node.isDir then
        if c = [] ∨ c = bytes "." then walk loc cs
        else if c = bytes ".." then walk loc.dropLast cs
        else (node.entry c).bind fun e => walk (loc ++ [e.1]) cs
      else none

/-- The place a path names, if it names one. -/
def resolve (path : Bytes) : Option Loc :=
  if path = [] then none
  else fs.walk (if path.head? = some 47 then [] else fs.cwd) (splitOnChar 47 path)

/-- `mkdir` of a name in the directory a path names. -/
def mkdir (dirname : Bytes) (name : Name) : FileSystem :=
  match fs.resolve dirname with
  | none => fs
  | some parent =>
    { fs with
      root := Node.makeDir name parent fs.root
      cwd_dir := by
        obtain ⟨node, hget, hdir⟩ := fs.cwd_dir
        obtain ⟨node', hget', hdir'⟩ := Node.get_makeDir name parent hget
        exact ⟨node', hget', hdir'.trans hdir⟩ }

theorem walk_append (loc : Loc) (cs cs' : List Bytes) :
    fs.walk loc (cs ++ cs') = (fs.walk loc cs).bind fun loc' => fs.walk loc' cs' := by
  induction cs generalizing loc with
  | nil => rfl
  | cons c cs ih =>
    rw [List.cons_append, walk, walk]
    cases fs.root.get loc with
    | none => rfl
    | some node =>
      dsimp only
      split
      · split
        · exact ih loc
        · split
          · exact ih loc.dropLast
          · cases node.entry c with
            | none => rfl
            | some e => exact ih (loc ++ [e.1])
      · rfl

theorem walk_exists {loc loc' : Loc} {cs : List Bytes} (hloc : fs.Exists loc)
    (h : fs.walk loc cs = some loc') : fs.Exists loc' := by
  induction cs generalizing loc with
  | nil =>
    obtain rfl : loc = loc' := Option.some.inj h
    exact hloc
  | cons c cs ih =>
    rw [walk] at h
    cases hget : fs.root.get loc with
    | none =>
      rw [hget] at h
      cases h
    | some node =>
      rw [hget] at h
      dsimp only at h
      split at h
      · split at h
        · exact ih hloc h
        · split at h
          · exact ih (Node.get_isSome_of_isPrefix (List.dropLast_prefix loc) hloc) h
          · obtain ⟨e, he, hwalk⟩ := Option.bind_eq_some_iff.mp h
            refine ih ?_ hwalk
            rw [Exists, Node.get_append, hget, Option.bind_some, Node.get, Node.entry_text he, he]
            rfl
      · cases h

/-- Without `.` and `..` the names of the place are the components of the path. -/
theorem walk_texts {loc loc' : Loc} {cs : List Bytes}
    (hplain : ∀ c ∈ cs, c ≠ bytes "." ∧ c ≠ bytes "..") (h : fs.walk loc cs = some loc') :
    loc'.map Name.text = loc.map Name.text ++ cs.filter (· ≠ []) := by
  induction cs generalizing loc with
  | nil =>
    obtain rfl : loc = loc' := Option.some.inj h
    exact (List.append_nil _).symm
  | cons c cs ih =>
    have hc := hplain c List.mem_cons_self
    have hcs := fun c' hc' => hplain c' (List.mem_cons_of_mem c hc')
    rw [walk] at h
    cases hget : fs.root.get loc with
    | none =>
      rw [hget] at h
      cases h
    | some node =>
      rw [hget] at h
      dsimp only at h
      split at h
      · by_cases hnil : c = []
        · subst hnil
          rw [if_pos (Or.inl rfl)] at h
          exact ih hcs h
        · rw [if_neg (not_or.mpr ⟨hnil, hc.1⟩), if_neg hc.2] at h
          obtain ⟨e, he, hwalk⟩ := Option.bind_eq_some_iff.mp h
          have hfilter : (c :: cs).filter (· ≠ []) = c :: cs.filter (· ≠ []) :=
            List.filter_cons_of_pos (decide_eq_true hnil)
          rw [ih hcs hwalk, List.map_append, List.append_assoc, hfilter, ← Node.entry_text he]
          rfl
      · cases h

theorem resolve_texts {path : Bytes} {loc : Loc} (habs : path.head? = some 47)
    (hplain : ∀ c ∈ splitOnChar 47 path, c ≠ bytes "." ∧ c ≠ bytes "..")
    (h : fs.resolve path = some loc) :
    loc.map Name.text = (splitOnChar 47 path).filter (· ≠ []) := by
  rw [resolve] at h
  split at h
  · cases h
  · exact walk_texts fs hplain (by simpa only [if_pos habs] using h)

/-- A path that is looked up successfully names a file that is there. -/
theorem resolve_exists {path : Bytes} {loc : Loc} (h : fs.resolve path = some loc) :
    fs.Exists loc := by
  rw [resolve] at h
  split at h
  · cases h
  · refine walk_exists fs ?_ h
    split
    · rfl
    · obtain ⟨node, hget, -⟩ := fs.cwd_dir
      rw [Exists, hget]
      rfl

/-- A name below a path names the file of that name below what the path names. -/
theorem resolve_child {path : Bytes} {name : Name} {loc loc' : Loc}
    (hpath : fs.resolve path = some loc) (h : fs.resolve (path ++ 47 :: name.text) = some loc') :
    loc' = loc ++ [name] := by
  rw [resolve] at hpath
  split at hpath
  · cases hpath
  · rename_i hne
    have hhead : (path ++ 47 :: name.text).head? = path.head? := by
      cases path with
      | nil => exact absurd rfl hne
      | cons c path => rfl
    rw [resolve, if_neg (by simp), hhead, splitOnChar_append, splitOnChar_of_notMem name.no_slash,
      walk_append, hpath, Option.bind_some, walk] at h
    cases hget : fs.root.get loc with
    | none =>
      rw [hget] at h
      cases h
    | some node =>
      rw [hget] at h
      dsimp only at h
      rw [if_neg (not_or.mpr ⟨name.nonempty, name.not_dot⟩), if_neg name.not_dotdot] at h
      split at h
      · obtain ⟨e, he, hloc⟩ := Option.bind_eq_some_iff.mp h
        obtain rfl : e.1 = name := Name.ext_text (Node.entry_text he)
        exact (Option.some.inj hloc).symm
      · cases h

end FileSystem

/-- The names of a place, each after its slash. -/
def below (loc : Loc) : Bytes := loc.flatMap fun name => 47 :: name.text

theorem below_cons (name : Name) (loc : Loc) :
    below (name :: loc) = 47 :: (name.text ++ below loc) := rfl

/-- The canonical path of a place. -/
def render (loc : Loc) : Bytes := if loc = [] then [47] else below loc

/-- The end of a text, or a slash. -/
def AtSlash (s : Bytes) : Prop := s = [] ∨ s.head? = some 47

theorem atSlash_below (loc : Loc) {rest : Bytes} (h : AtSlash rest) : AtSlash (below loc ++ rest) := by
  cases loc with
  | nil => exact h
  | cons name loc => exact .inr rfl

theorem takeWhile_name (name : Name) {s : Bytes} (h : AtSlash s) :
    (name.text ++ s).takeWhile (· ≠ 47) = name.text := by
  have htext : ∀ c ∈ name.text, decide (c ≠ 47) = true := fun c hc =>
    decide_eq_true fun heq => name.no_slash (heq ▸ hc)
  rw [List.takeWhile_append_of_pos htext]
  cases s with
  | nil => rw [List.takeWhile_nil, List.append_nil]
  | cons c s =>
    obtain hnil | hhead := h
    · cases hnil
    · obtain rfl : c = 47 := Option.some.inj hhead
      rw [List.takeWhile_cons_of_neg (by decide), List.append_nil]

/-- A path is a prefix of another up to a slash when the places are. -/
theorem below_append {l m : Loc} {rest : Bytes} (hrest : AtSlash rest)
    (h : below l ++ rest = below m) : ∃ m', m = l ++ m' ∧ rest = below m' := by
  induction l generalizing m with
  | nil => exact ⟨m, rfl, h⟩
  | cons name l ih =>
    cases m with
    | nil => cases h
    | cons name' m =>
      have hcons : name.text ++ (below l ++ rest) = name'.text ++ below m := by
        rw [below_cons, below_cons, List.cons_append, List.append_assoc] at h
        exact List.tail_eq_of_cons_eq h
      have hname : name.text = name'.text := by
        have hm := atSlash_below m (.inl rfl)
        rw [List.append_nil] at hm
        rw [← takeWhile_name name (atSlash_below l hrest), hcons, takeWhile_name name' hm]
      rw [hname] at hcons
      obtain ⟨m', rfl, hm'⟩ := ih (List.append_cancel_left hcons)
      exact ⟨m', by rw [Name.ext_text hname]; rfl, hm'⟩

theorem below_length {loc : Loc} (h : loc ≠ []) : 2 ≤ (below loc).length := by
  cases loc with
  | nil => exact absurd rfl h
  | cons name loc =>
    have hname := List.length_pos_iff.mpr name.nonempty
    rw [below_cons, List.length_cons, List.length_append]
    omega

theorem render_ne_nil (loc : Loc) : render loc ≠ [] := by
  cases loc with
  | nil => exact List.cons_ne_nil _ _
  | cons name loc => exact List.cons_ne_nil _ _

theorem render_ne_root {loc : Loc} (h : loc ≠ []) : render loc ≠ [47] := by
  intro heq
  have hlen := below_length h
  rw [render, if_neg h] at heq
  rw [heq] at hlen
  cases hlen with
  | step hlen => cases hlen

theorem render_inj {l m : Loc} : render l = render m ↔ l = m := by
  refine ⟨fun h => ?_, fun h => h ▸ rfl⟩
  by_cases hl : l = []
  · subst hl
    by_cases hm : m = []
    · exact hm.symm
    · exact absurd h.symm (render_ne_root hm)
  · by_cases hm : m = []
    · subst hm
      exact absurd h (render_ne_root hl)
    · rw [render, render, if_neg hl, if_neg hm, ← List.append_nil (below l)] at h
      obtain ⟨m', rfl, hm'⟩ := below_append (.inl rfl) h
      cases m' with
      | nil => exact (List.append_nil l).symm
      | cons name m' => cases hm'

/-- The test on canonical paths for one file to lie above another. -/
theorem render_ancestor_iff {l m : Loc} (hne : l ≠ m) :
    render l <+: render m ∧ (render l = [47] ∨ (render m)[(render l).length]? = some 47) ↔
      l <+: m := by
  by_cases hl : l = []
  · subst hl
    refine ⟨fun _ => List.nil_prefix, fun _ => ⟨?_, .inl rfl⟩⟩
    cases m with
    | nil => exact List.prefix_refl _
    | cons name m => exact ⟨name.text ++ below m, rfl⟩
  · by_cases hm : m = []
    · subst hm
      refine ⟨fun ⟨hpre, _⟩ => ?_, fun hpre => absurd (List.prefix_nil.mp hpre) hl⟩
      have hlen := below_length hl
      have hle := hpre.length_le
      rw [render, render, if_neg hl, if_pos rfl, List.length_singleton] at hle
      omega
    · have hroot := render_ne_root hl
      rw [render, render, if_neg hl, if_neg hm]
      constructor
      · rintro ⟨⟨rest, hrest⟩, hat⟩
        have hslash : AtSlash rest := by
          obtain heq | hat := hat
          · rw [render, if_neg hl] at hroot
            exact absurd heq hroot
          · rw [← hrest, List.getElem?_append_right (Nat.le_refl _), Nat.sub_self] at hat
            exact .inr (by rw [List.head?_eq_getElem?]; exact hat)
        obtain ⟨m', rfl, -⟩ := below_append hslash hrest
        exact List.prefix_append l m'
      · rintro ⟨m', rfl⟩
        have happ : below (l ++ m') = below l ++ below m' := List.flatMap_append
        cases m' with
        | nil => exact absurd (List.append_nil l).symm hne
        | cons name m' =>
          refine ⟨⟨_, happ.symm⟩, .inr ?_⟩
          rw [happ, List.getElem?_append_right (Nat.le_refl _), Nat.sub_self]
          rfl

end Raoui
