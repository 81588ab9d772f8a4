import Raoui.Base

/-!
# Raoui.Editor.SearchPager

`lib/search_pager.ml`: packing the matches of a history search into a budget of rows.
-/

namespace Raoui
namespace SearchPager

structure Row where
  entryIndex : Nat
  line : Bytes
  /-- The entry's first visible row. -/
  first : Bool
  /-- How many of the entry's lines are not shown, on its last visible row. -/
  hiddenLines : Int
  deriving DecidableEq, Repr

/-- Other entries kept visible beside the expanded selection. -/
def minContext : Int := 3

def maxRows (termHeight : Int) : Int := min 10 (max 0 (termHeight - 2))

def linesOf (entry : Bytes × Bytes) : List Bytes := splitOnChar newline entry.2

/-- The rows of one entry, `height` of its lines. -/
def entryRows (i : Nat) (height : Int) (entryLines : List Bytes) : List Row :=
  (entryLines.take height.toNat).mapIdx fun j line =>
    ⟨i, line, j = 0, if (j : Int) = height - 1 then entryLines.length - height else 0⟩

/-- The packing loop from entry `i` on. -/
def packFrom (selected selectedHeight : Int) (i : Nat) (budget : Int) :
    List (Bytes × Bytes) → List Row
  | [] => []
  | entry :: rest =>
    if budget > 0 then
      let height := if (i : Int) = selected then min selectedHeight budget else 1
      entryRows i height (linesOf entry) ++
        packFrom selected selectedHeight (i + 1) (budget - height) rest
    else []

def viewRows (maxRows selected : Int) (found : List (Bytes × Bytes)) : Res (List Row) := do
  let n : Int := found.length
  if n = 0 ∨ maxRows ≤ 0 then return []
  else if ¬(selected ≥ 0 ∧ selected < n) then .error .assertFailure
  else
    let selectedLines := linesOf (← nth found selected)
    let selectedHeight := min (selectedLines.length : Int) (max 1 (maxRows - min minContext (n - 1)))
    -- the window slides down until the rows above the selection and its block fit
    let windowStart := (max 0 (selected - (maxRows - selectedHeight))).toNat
    return packFrom selected selectedHeight windowStart maxRows (found.drop windowStart)

end SearchPager
end Raoui
