/-!
# Terminal screens

A terminal of `h` rows shows the last `h` of all the lines there have been. What a line is and how
text is written into it is left to a device.

* `Screen`: the lines, taken apart at the cursor.
* `step`, `run`: what the terminal does on a command, `none` where that depends on more than this.
* `run_scroll`, `run_redraw`, `run_writePatches`: scrolling, drawing anew and writing over rows, as
  what becomes of all the lines.
-/

namespace Terminal

/-- Lines of type `ρ`, into which texts of type `τ` are written from a column on. -/
structure Device (ρ τ : Type) where
  blank : ρ
  write : ρ → Int → τ → ρ
  erase : ρ → Int → ρ
  erase_all : ∀ l, erase l 1 = blank

inductive Command (τ : Type) where
  | place (row col : Int)
  | newline
  | erase
  | write (text : τ)

/-- The column is unknown once something has been written. -/
structure Screen (ρ : Type) where
  above : List ρ
  line : ρ
  below : List ρ
  col : Option Int

variable {ρ τ : Type}

namespace Screen

/-- All lines, from the first that has scrolled off the screen. -/
def all (s : Screen ρ) : List ρ := s.above ++ s.line :: s.below

/-- The index of row `r` of the screen, counted from 1. -/
def rowIndex (h : Nat) (lines : List ρ) (r : Int) : Nat := lines.length - h + (r - 1).toNat

/-- The lines above row `r`. -/
def aboveRow (h : Nat) (lines : List ρ) (r : Int) : List ρ := lines.take (rowIndex h lines r)

def fromRow (h : Nat) (lines : List ρ) (r : Int) : List ρ := lines.drop (rowIndex h lines r)

def step (d : Device ρ τ) (h : Nat) (s : Screen ρ) : Command τ → Option (Screen ρ)
  | .place row col =>
    if 1 ≤ row ∧ row ≤ h ∧ 1 ≤ col then
      match fromRow h s.all row with
      | [] => none
      | line :: below => some ⟨aboveRow h s.all row, line, below, some col⟩
    else none
  | .newline =>
    match s.below with
    | [] => some ⟨s.above ++ [s.line], d.blank, [], some 1⟩
    | line :: below => some ⟨s.above ++ [s.line], line, below, some 1⟩
  | .erase => s.col.map fun col => { s with line := d.erase s.line col }
  | .write text => s.col.map fun col => { s with line := d.write s.line col text, col := none }

def run (d : Device ρ τ) (h : Nat) : Screen ρ → List (Command τ) → Option (Screen ρ)
  | s, [] => some s
  | s, c :: cs => (step d h s c).bind fun s' => run d h s' cs

variable {d : Device ρ τ} {h : Nat} {s s' : Screen ρ}

theorem run_append {cs cs' : List (Command τ)} {s'' : Screen ρ} (h₁ : run d h s cs = some s')
    (h₂ : run d h s' cs' = some s'') : run d h s (cs ++ cs') = some s'' := by
  induction cs generalizing s with
  | nil =>
    cases h₁
    exact h₂
  | cons c cs ih =>
    obtain ⟨s₁, hstep, hrun⟩ := Option.bind_eq_some_iff.mp h₁
    rw [List.cons_append, run, hstep]
    exact ih hrun

theorem run_cons {c : Command τ} {cs : List (Command τ)} {s'' : Screen ρ}
    (h₁ : step d h s c = some s') (h₂ : run d h s' cs = some s'') :
    run d h s (c :: cs) = some s'' := by
  rw [run, h₁]
  exact h₂

theorem rowIndex_lt {lines : List ρ} {r : Int} (hlen : h ≤ lines.length) (h1 : 1 ≤ r)
    (hr : r ≤ h) : rowIndex h lines r < lines.length := by
  unfold rowIndex
  omega

theorem step_write {c : Int} {text : τ} (hcol : s.col = some c) : step d h s (.write text) =
    some { s with line := d.write s.line c text, col := none } := by
  rw [step, hcol]
  rfl

theorem step_erase {c : Int} (hcol : s.col = some c) :
    step d h s .erase = some { s with line := d.erase s.line c } := by
  rw [step, hcol]
  rfl

/-- Moving the cursor keeps the lines. -/
theorem step_place {r c : Int} (hlen : h ≤ s.all.length) (h1 : 1 ≤ r) (hr : r ≤ h) (hc : 1 ≤ c) :
    ∃ s', step d h s (.place r c) = some s' ∧ s'.all = s.all ∧ s'.above = aboveRow h s.all r ∧
      s'.line :: s'.below = fromRow h s.all r ∧ s'.col = some c := by
  simp only [step, if_pos (And.intro h1 (And.intro hr hc))]
  have hlt := rowIndex_lt hlen h1 hr
  cases hrest : fromRow h s.all r with
  | nil =>
    have hnone := List.drop_eq_nil_iff.mp hrest
    omega
  | cons line below =>
    refine ⟨_, rfl, ?_, rfl, rfl, rfl⟩
    rw [all, ← hrest]
    exact List.take_append_drop _ _

/-! ## Rows of the screen -/

/-- Row `r` is changed. -/
def modifyRow (h : Nat) (lines : List ρ) (r : Int) (f : ρ → ρ) : List ρ :=
  lines.modify (rowIndex h lines r) f

@[simp] theorem length_modifyRow {lines : List ρ} {r : Int} {f : ρ → ρ} :
    (modifyRow h lines r f).length = lines.length := List.length_modify _ _ _

theorem modify_split {lines : List ρ} {f : ρ → ρ} {k : Nat} {x : ρ} {rest : List ρ}
    (hrest : lines.drop k = x :: rest) : lines.modify k f = lines.take k ++ f x :: rest := by
  rw [List.modify_eq_take_drop, hrest]
  rfl

theorem step_place_then {r c : Int} {cmd : Command τ} {f : ρ → ρ} (hlen : h ≤ s.all.length)
    (h1 : 1 ≤ r) (hr : r ≤ h) (hc : 1 ≤ c)
    (hcmd : ∀ t : Screen ρ, t.col = some c → ∃ t', step d h t cmd = some t' ∧
      t'.above = t.above ∧ t'.line = f t.line ∧ t'.below = t.below) :
    ∃ s', run d h s [.place r c, cmd] = some s' ∧ s'.all = modifyRow h s.all r f := by
  obtain ⟨t, hplace, -, habove, hbelow, hcol⟩ := step_place (d := d) hlen h1 hr hc
  obtain ⟨t', hstep, habove', hline, hbelow'⟩ := hcmd t hcol
  refine ⟨t', run_cons hplace (run_cons hstep rfl), ?_⟩
  rw [all, habove', hline, hbelow', habove, modifyRow]
  exact (modify_split hbelow.symm).symm

/-- Text is written into row `r` from column `c` on. -/
theorem run_write {r c : Int} {text : τ} (hlen : h ≤ s.all.length) (h1 : 1 ≤ r) (hr : r ≤ h)
    (hc : 1 ≤ c) : ∃ s', run d h s [.place r c, .write text] = some s' ∧
      s'.all = modifyRow h s.all r fun l => d.write l c text :=
  step_place_then hlen h1 hr hc fun _ hcol => ⟨_, step_write hcol, rfl, rfl, rfl⟩

/-- Row `r` is cleared. -/
theorem run_blank {r : Int} (hlen : h ≤ s.all.length) (h1 : 1 ≤ r) (hr : r ≤ h) :
    ∃ s', run d h s [.place r 1, .erase] = some s' ∧
      s'.all = modifyRow h s.all r fun _ => d.blank :=
  step_place_then hlen h1 hr (Int.le_refl 1) fun t hcol =>
    ⟨_, step_erase hcol, rfl, d.erase_all t.line, rfl⟩

/-- On the last row a newline scrolls. -/
theorem run_newlines (k : Nat) (hbelow : s.below = []) (hcol : s.col = some 1) :
    ∃ s', run d h s (List.replicate k .newline) = some s' ∧
      s'.all = s.all ++ List.replicate k d.blank := by
  induction k generalizing s with
  | zero => exact ⟨s, rfl, (List.append_nil _).symm⟩
  | succ k ih =>
    obtain ⟨s', hrun, hall⟩ := ih (s := ⟨s.above ++ [s.line], d.blank, [], some 1⟩) rfl rfl
    refine ⟨s', run_cons (by rw [step, hbelow]) hrun, ?_⟩
    rw [hall, all, all, hbelow, List.append_assoc, List.replicate_succ]
    simp

theorem run_scroll (k : Nat) (hlen : h ≤ s.all.length) (hh : 1 ≤ h) :
    ∃ s', run d h s (.place h 1 :: List.replicate k .newline) = some s' ∧
      s'.all = s.all ++ List.replicate k d.blank := by
  obtain ⟨t, hplace, hall, habove, hrest, hcol⟩ :=
    step_place (d := d) (s := s) hlen (Int.ofNat_le.mpr hh) (Int.le_refl _) (Int.le_refl 1)
  have hbelow : t.below = [] := by
    have hcount := congrArg List.length hrest
    rw [fromRow, List.length_drop, List.length_cons, rowIndex] at hcount
    exact List.eq_nil_of_length_eq_zero (by omega)
  obtain ⟨s', hrun, hall'⟩ := run_newlines (d := d) (h := h) k hbelow hcol
  exact ⟨s', run_cons hplace hrun, hall ▸ hall'⟩

/-! ## Many rows -/

/-- Rows are written one below the other, each on a line that is cleared first. -/
def writeRows : List τ → List (Command τ)
  | [] => []
  | [text] => [.erase, .write text]
  | text :: next :: texts => .erase :: .write text :: .newline :: writeRows (next :: texts)

theorem run_erase_write {text : τ} (hcol : s.col = some 1) :
    run d h s [.erase, .write text] =
      some ⟨s.above, d.write d.blank 1 text, s.below, none⟩ := by
  refine run_cons (step_erase hcol) (run_cons (step_write hcol) ?_)
  rw [d.erase_all]
  rfl

/-- They take the place of as many rows from the cursor's on, and scroll the screen if there are
more. -/
theorem run_writeRows (texts : List τ) (hcol : s.col = some 1) :
    ∃ s', run d h s (writeRows texts) = some s' ∧
      s'.all = s.above ++ texts.map (d.write d.blank 1) ++
        (s.line :: s.below).drop texts.length := by
  induction texts generalizing s with
  | nil => exact ⟨s, rfl, by rw [List.map_nil, List.append_nil]; rfl⟩
  | cons text texts ih =>
    cases texts with
    | nil => exact ⟨_, run_erase_write hcol, by rw [List.append_assoc]; rfl⟩
    | cons next texts =>
      have hwrite : run d h s [.erase, .write text] = _ := run_erase_write hcol
      cases hbelow : s.below with
      | nil =>
        obtain ⟨s', hrun, hall⟩ := ih
          (s := ⟨s.above ++ [d.write d.blank 1 text], d.blank, [], some 1⟩) rfl
        refine ⟨s', run_append hwrite (run_cons (by rw [step, hbelow]) hrun), ?_⟩
        rw [hall]
        simp
      | cons line below =>
        obtain ⟨s', hrun, hall⟩ := ih
          (s := ⟨s.above ++ [d.write d.blank 1 text], line, below, some 1⟩) rfl
        refine ⟨s', run_append hwrite (run_cons (by rw [step, hbelow]) hrun), ?_⟩
        rw [hall]
        simp

/-- The commands that clear `n` rows from row `first` on. -/
def eraseRows (first : Int) (n : Nat) : List (Command τ) :=
  (List.range n).flatMap fun k : Nat => [.place (first + k) 1, .erase]

theorem eraseRows_succ (first : Int) (n : Nat) : (eraseRows first (n + 1) : List (Command τ)) =
    eraseRows first n ++ [.place (first + n) 1, .erase] := by
  rw [eraseRows, List.range_succ, List.flatMap_append]
  rfl

theorem modify_after_blanks {lines : List ρ} {x : ρ} {i n : Nat} (h : i + n < lines.length) :
    (lines.take i ++ List.replicate n x ++ lines.drop (i + n)).modify (i + n) (fun _ => x) =
      lines.take i ++ List.replicate (n + 1) x ++ lines.drop (i + (n + 1)) := by
  have hlen : (lines.take i ++ List.replicate n x).length = i + n := by
    rw [List.length_append, List.length_take, List.length_replicate]
    omega
  obtain ⟨y, rest, hrest⟩ : ∃ y rest, lines.drop (i + n) = y :: rest := by
    cases hd : lines.drop (i + n) with
    | nil => exact absurd (List.drop_eq_nil_iff.mp hd) (by omega)
    | cons y rest => exact ⟨y, rest, rfl⟩
  have hnext : lines.drop (i + (n + 1)) = rest := by
    rw [← Nat.add_assoc, ← List.drop_drop, hrest]
    rfl
  have hdrop : (lines.take i ++ List.replicate n x ++ y :: rest).drop (i + n) = y :: rest := by
    rw [← hlen]
    exact List.drop_left
  have htake : (lines.take i ++ List.replicate n x ++ y :: rest).take (i + n) =
      lines.take i ++ List.replicate n x := by
    rw [← hlen]
    exact List.take_left
  rw [hrest, hnext, modify_split hdrop, htake, List.replicate_succ', List.append_assoc,
    List.append_assoc, List.append_assoc]
  rfl

theorem run_eraseRows {first : Int} (n : Nat) (hlen : h ≤ s.all.length) (h1 : 1 ≤ first)
    (hn : first + n ≤ h + 1) : ∃ s', run d h s (eraseRows first n) = some s' ∧
      s'.all = aboveRow h s.all first ++ List.replicate n d.blank ++
        s.all.drop (rowIndex h s.all first + n) := by
  induction n with
  | zero =>
    refine ⟨s, rfl, ?_⟩
    rw [List.replicate_zero, List.append_nil]
    exact (List.take_append_drop _ _).symm
  | succ n ih =>
    obtain ⟨t, hrun, hall⟩ := ih (by omega)
    have hcount : t.all.length = s.all.length := by
      rw [hall, aboveRow, List.length_append, List.length_append, List.length_take,
        List.length_replicate, List.length_drop]
      unfold rowIndex
      omega
    obtain ⟨s', hrun', hall'⟩ := run_blank (d := d) (s := t) (r := first + n) (hcount ▸ hlen)
      (by omega) (by omega)
    refine ⟨s', eraseRows_succ first n ▸ run_append hrun hrun', ?_⟩
    have hindex : rowIndex h t.all (first + n) = rowIndex h s.all first + n := by
      unfold rowIndex
      rw [hcount]
      omega
    rw [hall', modifyRow, hindex, hall]
    exact modify_after_blanks (by unfold rowIndex; omega)

/-- The screen is drawn anew from row `r` on. -/
theorem run_redraw {r : Int} (texts : List τ) (hlen : h ≤ s.all.length) (h1 : 1 ≤ r) (hr : r ≤ h) :
    ∃ s', run d h s (.place r 1 :: (writeRows texts ++
        eraseRows (r + texts.length) (h - (r - 1).toNat - texts.length))) = some s' ∧
      s'.all = aboveRow h s.all r ++ texts.map (d.write d.blank 1) ++
        List.replicate (h - (r - 1).toNat - texts.length) d.blank := by
  obtain ⟨t, hplace, -, habove, hrest, hcol⟩ := step_place (d := d) hlen h1 hr (Int.le_refl 1)
  obtain ⟨u, hwrite, hall⟩ := run_writeRows (d := d) (h := h) texts hcol
  rw [habove, hrest] at hall
  have hindex := rowIndex_lt hlen h1 hr
  have hfrom : (fromRow h s.all r).length = h - (r - 1).toNat := by
    rw [fromRow, List.length_drop]
    unfold rowIndex at hindex ⊢
    omega
  have habove : (aboveRow h s.all r).length = rowIndex h s.all r :=
    List.length_take_of_le (Nat.le_of_lt hindex)
  generalize hn : h - (r - 1).toNat - texts.length = n
  cases n with
  | zero =>
    refine ⟨u, run_cons hplace (run_append hwrite rfl), ?_⟩
    rw [hall, List.drop_of_length_le (by omega)]
    rfl
  | succ n =>
    have hcount : u.all.length = s.all.length := by
      rw [hall, List.length_append, List.length_append, habove, List.length_map, List.length_drop,
        hfrom]
      unfold rowIndex at hindex ⊢
      omega
    have hfirst : rowIndex h u.all (r + texts.length) = rowIndex h s.all r + texts.length := by
      unfold rowIndex
      rw [hcount]
      omega
    have hprefix : (aboveRow h s.all r ++ texts.map (d.write d.blank 1)).length =
        rowIndex h u.all (r + texts.length) := by
      rw [hfirst, List.length_append, habove, List.length_map]
    have hrow : 1 ≤ r + (texts.length : Int) := by omega
    obtain ⟨s', herase, hall'⟩ := run_eraseRows (d := d) (s := u) (n + 1) (hcount ▸ hlen) hrow
      (by omega)
    refine ⟨s', run_cons hplace (run_append hwrite herase), ?_⟩
    have hdrop : u.all.drop (rowIndex h u.all (r + texts.length) + (n + 1)) = [] := by
      refine List.drop_of_length_le ?_
      rw [hcount, hfirst]
      unfold rowIndex at hindex ⊢
      omega
    rw [hall', hdrop, List.append_nil, aboveRow, ← hprefix, hall, List.take_left]

/-! ## Text put over the rows -/

structure Patch (τ : Type) where
  row : Int
  col : Int
  text : τ

def Patch.OnScreen (h : Nat) (p : Patch τ) : Prop := 1 ≤ p.row ∧ p.row ≤ h ∧ 1 ≤ p.col

def writePatches (ps : List (Patch τ)) : List (Command τ) :=
  ps.flatMap fun p => [.place p.row p.col, .write p.text]

def patched (d : Device ρ τ) (h : Nat) (lines : List ρ) (ps : List (Patch τ)) : List ρ :=
  ps.foldl (fun lines p => modifyRow h lines p.row fun l => d.write l p.col p.text) lines

theorem length_patched {lines : List ρ} {ps : List (Patch τ)} :
    (patched d h lines ps).length = lines.length := by
  induction ps generalizing lines with
  | nil => rfl
  | cons p ps ih => exact ih.trans length_modifyRow

theorem run_writePatches {ps : List (Patch τ)} (hlen : h ≤ s.all.length)
    (hps : ∀ p ∈ ps, p.OnScreen h) :
    ∃ s', run d h s (writePatches ps) = some s' ∧ s'.all = patched d h s.all ps := by
  induction ps generalizing s with
  | nil => exact ⟨s, rfl, rfl⟩
  | cons p ps ih =>
    obtain ⟨⟨h1, hr, hc⟩, hps⟩ := List.forall_mem_cons.mp hps
    obtain ⟨t, hrun, hall⟩ := @run_write _ _ d _ s p.row p.col p.text hlen h1 hr hc
    obtain ⟨s', hrun', hall'⟩ := ih (s := t) (by rw [hall, length_modifyRow]; exact hlen) hps
    refine ⟨s', run_append hrun hrun', ?_⟩
    rw [hall', hall]
    rfl

end Screen
end Terminal
