import ExactCover.Search

/-!
# Solving an exact cover problem

A problem is a matrix of entries and a cap. `solve` reads the matrix, searches it for
sets of rows that have exactly one 1 in each column, and reports them with the cost of
the search. Rows are named by their positions, in the order in which the search chose
them, which need not be ascending.

A matrix is refused for its shape, and a cap on the number of solutions for being
negative. Each error is a cause with its data; `message` gives its wording and `code`
its stable identifier.
-/

namespace ExactCover

/-! ## Errors -/

/-- Why a problem or its options are refused. -/
inductive Error where
  /-- The given rows do not form a matrix. -/
  | invalidMatrixShape (cause : ShapeError)
  /-- The cap on the number of solutions is negative. -/
  | invalidOptions (maxSolutions : Int)
deriving DecidableEq, Repr

namespace Error

/-- The stable identifier of an error. -/
def code : Error → String
  | .invalidMatrixShape _ => "E001"
  | .invalidOptions _ => "E002"

/-- The error that this one wraps, if any. -/
def cause? : Error → Option ShapeError
  | .invalidMatrixShape cause => some cause
  | .invalidOptions _ => none

/-- The wording of an error; it contains the wording of the wrapped one. -/
def message : Error → String
  | .invalidMatrixShape cause => "invalid matrix shape: " ++ cause.message
  | .invalidOptions maxSolutions =>
    s!"invalid options: the maximum number of solutions must be nonnegative, got {maxSolutions}"

end Error

/-! ## Caps -/

/-- How many solutions are wanted (`SolveOptions`). A cap that limits is positive, since
    the number zero asks for no cap at all. -/
inductive Cap where
  /-- Every solution. -/
  | unlimited
  /-- The first `count` solutions. -/
  | atMost (count : Nat) (count_pos : 0 < count)
deriving DecidableEq, Repr

namespace Cap

/-- Every solution is wanted, unless a cap is asked for. -/
instance : Inhabited Cap := ⟨.unlimited⟩

/-- The cap that a count asks for; zero asks for none (`with_max_solutions`). -/
def ofNat (count : Nat) : Cap :=
  if h : 0 < count then .atMost count h else .unlimited

/-- The cap that a signed count asks for; a negative one is refused (`try_from`). -/
def ofInt : Int → Except Error Cap
  | .ofNat count => .ok (ofNat count)
  | .negSucc n => .error (.invalidOptions (.negSucc n))

/-- The greatest number of solutions that are reported, if there is one. -/
def max? : Cap → Option Nat
  | .unlimited => none
  | .atMost count _ => some count

/-- Whether `found` solutions are enough to stop (`is_satisfied_by`). -/
def isMetBy (cap : Cap) (found : Nat) : Bool :=
  cap.max?.any (· ≤ found)

@[simp] theorem max?_unlimited : unlimited.max? = none := rfl

@[simp] theorem max?_atMost {count : Nat} (h : 0 < count) : (atMost count h).max? = some count :=
  rfl

@[simp] theorem ofNat_zero : ofNat 0 = unlimited := rfl

theorem ofNat_of_pos {count : Nat} (h : 0 < count) : ofNat count = atMost count h := by
  simp [ofNat, h]

@[simp] theorem isMetBy_unlimited (found : Nat) : unlimited.isMetBy found = false := rfl

@[simp] theorem isMetBy_atMost {count found : Nat} (h : 0 < count) :
    (atMost count h).isMetBy found = true ↔ count ≤ found := by
  simp [isMetBy]

/-- The visitor that keeps every exact cover and is done once the cap is met. -/
def collect (cap : Cap) (found : Array (List Nat)) (rows : List Nat) :
    ForInStep (Array (List Nat)) :=
  let found := found.push rows
  if cap.isMetBy found.size then .done found else .yield found

end Cap

/-! ## Reports -/

/-- What the search of a matrix found. -/
structure Report where
  /-- The number of rows of the matrix. -/
  height : Nat
  /-- The number of columns of the matrix. -/
  width : Nat
  /-- The number of 1s of the matrix. -/
  ones : Nat
  /-- The exact covers, in the order in which the search found them. -/
  solutions : List (List Nat)
  /-- How often a node was hidden, a measure of the work that does not depend on the
      machine. -/
  updates : Nat
  /-- Whether the cap ended the search. -/
  stopped : Bool
deriving DecidableEq, Repr

/-- Why there is no report. -/
inductive Failure where
  /-- The problem is not well formed. -/
  | refused (error : Error)
  /-- The search found its links broken. -/
  | broken (fault : Fault)
deriving DecidableEq, Repr

/-- The exact covers of a matrix, up to the cap. -/
def BitMatrix.solve (m : BitMatrix) (cap : Cap) : Except Fault Report := do
  let outcome ← (Search.ofMatrix m).run cap.collect #[]
  return {
    height := (Search.ofMatrix m).links.height
    width := m.width
    ones := m.ones.length
    solutions := outcome.result.toList
    updates := outcome.search.updates
    stopped := outcome.stopped }

/-- The exact covers of the matrix with the given rows, up to the cap (`solve`). The
    shape of the matrix is checked first. -/
def solve {α : Type} [Entry α] (rows : List (List α)) (cap : Cap) : Except Failure Report := do
  let m ← (BitMatrix.ofRows rows).mapError (.refused ∘ .invalidMatrixShape)
  (m.solve cap).mapError .broken

end ExactCover
