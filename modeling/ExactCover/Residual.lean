import Mathlib
import ExactCover.BitMatrix

/-!
# Exact covers by reducing the matrix

What remains of an exact cover problem once some rows are chosen is a smaller problem:
the columns that no chosen row meets, and the rows that meet no chosen row.
`Residual.covers` solves it by recursion: branch on a shortest column, choose each of
its rows in turn, and solve what remains. Nothing is ever put back, because nothing is
changed.

The cost of a search is the number of nodes that it hides, and can be told from the
matrix alone: `Residual.work` follows the same recursion and adds up what each branching
and each choice hides. Putting nodes back costs nothing.

Results:
* `columns_choose_lt`: a choice leaves fewer columns, so the recursion ends.
* `shortest?_eq_none_iff`: there is a shortest column as long as there is a column.
-/

namespace ExactCover

/-! ## What remains -/

/-- What remains of the matrix `m` after some choices. -/
structure Residual (m : BitMatrix) where
  /-- The columns still to be covered, from left to right. -/
  columns : List (Fin m.width)
  /-- The rows that can still be chosen, from top to bottom. -/
  rows : List Nat

namespace Residual

variable {m : BitMatrix}

/-- All of the matrix. -/
def whole (m : BitMatrix) : Residual m where
  columns := List.finRange m.width
  rows := List.range m.height

/-- The rows that can cover column `j`. -/
def candidates (R : Residual m) (j : Fin m.width) : List Nat :=
  R.rows.filter (m.entry · j)

/-- The leftmost of the columns with the fewest candidates. -/
def shortest? (R : Residual m) : Option (Fin m.width) :=
  R.columns.find? fun j =>
    R.columns.all fun j' => (R.candidates j).length ≤ (R.candidates j').length

/-- What remains after row `r` is chosen. -/
def choose (R : Residual m) (r : Nat) : Residual m where
  columns := R.columns.filter (!m.entry r ·)
  rows := R.rows.filter (!m.meets r ·)

theorem columns_choose_lt {R : Residual m} {j : Fin m.width} {r : Nat}
    (hj : R.shortest? = some j) (hr : r ∈ R.candidates j) :
    (R.choose r).columns.length < R.columns.length := by
  have hmem : j ∈ R.columns := List.mem_of_find?_eq_some hj
  have hentry : m.entry r j = true := (List.mem_filter.1 hr).2
  exact List.length_filter_lt_length_iff_exists.2 ⟨j, hmem, by simp [hentry]⟩

theorem shortest?_eq_none_iff {R : Residual m} : R.shortest? = none ↔ R.columns = [] := by
  constructor
  · intro hnone
    by_contra hne
    obtain ⟨j, hj, hmin⟩ := R.columns.toFinset.exists_min_image
      (fun j => (R.candidates j).length) ((List.toFinset_nonempty_iff _).2 hne)
    simp only [List.mem_toFinset] at hj hmin
    have hnot := List.find?_eq_none.1 hnone j hj
    exact hnot (by simpa using hmin)
  · intro hnil
    simp [shortest?, hnil]

/-! ## Exact covers and work -/

/-- The exact covers of what remains, each as the list of the rows in the order in which
    they are chosen. -/
def covers (R : Residual m) : List (List Nat) :=
  match _hshortest : R.shortest? with
  | none => [[]]
  | some j => (R.candidates j).attach.flatMap fun ⟨r, _⟩ => (R.choose r).covers.map (r :: ·)
termination_by R.columns.length
decreasing_by exact columns_choose_lt ‹_› ‹_›

/-- The number of 1s of a row beyond the first. -/
def excess (m : BitMatrix) (r : Nat) : Nat :=
  (List.finRange m.width).countP (m.entry r ·) - 1

/-- What it takes to choose row `r` for column `j` once `j` is covered: the 1s of the
    other rows that `r` meets are hidden, except one of each row. -/
def effort (R : Residual m) (j : Fin m.width) (r : Nat) : Nat :=
  ((R.rows.filter fun r' => m.meets r r' && !m.entry r' j).map (excess m)).sum

/-- The number of nodes that are hidden in the course of a search of what remains: for
    each shortest column that is branched on, the 1s of its candidates, and then the
    effort of each choice. -/
def work (R : Residual m) : Nat :=
  match _hshortest : R.shortest? with
  | none => 0
  | some j =>
    ((R.candidates j).map (excess m)).sum
      + ((R.candidates j).attach.map fun ⟨r, _⟩ => R.effort j r + (R.choose r).work).sum
termination_by R.columns.length
decreasing_by exact columns_choose_lt ‹_› ‹_›

end Residual

end ExactCover
