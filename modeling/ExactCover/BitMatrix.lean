/-!
# Matrices of zeros and ones

An exact cover problem only asks which entries of a matrix are 1s, so `Entry` says when
a value stands for one. `BitMatrix` is a matrix whose entries are told apart only as 1s
and 0s. Its type says what a well-shaped matrix is: at least one row, and rows of one
width. `BitMatrix.ofRows` reads rows of any entries and refuses the others, naming the
first row that differs from row 0.

Results:
* `mem_ones`: the 1s that are listed are the 1s of the matrix.
* `length_rowsOfWidth`: no row is lost when rows are read.
-/

namespace ExactCover

/-! ## Entries -/

/-- The types that can be entries of a 0/1 matrix (`Cell`). -/
class Entry (α : Type) where
  /-- Whether the value stands for a 1 (`is_present`): a truth value if it is true, a
      number if it is not zero. Among the floating-point numbers `-0.0` equals zero and
      NaN equals nothing, so NaN stands for a 1. -/
  isOne : α → Bool

namespace Entry

instance : Entry Bool := ⟨id⟩

instance : Entry Nat := ⟨(· != 0)⟩
instance : Entry Int := ⟨(· != 0)⟩

instance : Entry UInt8 := ⟨(· != 0)⟩
instance : Entry UInt16 := ⟨(· != 0)⟩
instance : Entry UInt32 := ⟨(· != 0)⟩
instance : Entry UInt64 := ⟨(· != 0)⟩
instance : Entry USize := ⟨(· != 0)⟩

instance : Entry Int8 := ⟨(· != 0)⟩
instance : Entry Int16 := ⟨(· != 0)⟩
instance : Entry Int32 := ⟨(· != 0)⟩
instance : Entry Int64 := ⟨(· != 0)⟩
instance : Entry ISize := ⟨(· != 0)⟩

/-- Words of any width, such as those of 128 bits. -/
instance (width : Nat) : Entry (BitVec width) := ⟨(· != 0)⟩

instance : Entry Float32 := ⟨(· != 0.0)⟩
instance : Entry Float := ⟨(· != 0.0)⟩

end Entry

/-! ## Shapes -/

/-- Why a list of rows is not a matrix. -/
inductive ShapeError where
  /-- There are no rows, so the number of columns is unknown. -/
  | noRows
  /-- The row at position `row` has `found` entries, but the first row has
      `expected`. -/
  | raggedRow (row expected found : Nat)
deriving DecidableEq, Repr

/-- The wording of a shape error. -/
def ShapeError.message : ShapeError → String
  | .noRows => "the matrix has no rows"
  | .raggedRow row expected found =>
    s!"row {row} has {found} entries, but the first row has {expected}"

/-! ## Matrices -/

/-- A matrix of zeros and ones with at least one row. -/
structure BitMatrix where
  /-- The number of columns. -/
  width : Nat
  /-- The rows, from top to bottom. -/
  rows : List (Vector Bool width)
  rows_ne_nil : rows ≠ []

namespace BitMatrix

/-- The number of rows. -/
def height (m : BitMatrix) : Nat :=
  m.rows.length

/-- Whether row `r` has a 1 in column `j`; there are none below the last row. -/
def entry (m : BitMatrix) (r : Nat) (j : Fin m.width) : Bool :=
  m.rows[r]?.any (·[j])

/-- The columns in which a row has a 1, from left to right. -/
def onesOf {width : Nat} (row : Vector Bool width) : List (Fin width) :=
  (List.finRange width).filter (row[·])

/-- The positions (row, column) of the 1s, row by row and from left to right. -/
def ones (m : BitMatrix) : List (Nat × Fin m.width) :=
  m.rows.zipIdx.flatMap fun (row, r) => (onesOf row).map (r, ·)

theorem mem_onesOf {width : Nat} {row : Vector Bool width} {j : Fin width} :
    j ∈ onesOf row ↔ row[j] = true := by
  simp [onesOf]

theorem mem_ones {m : BitMatrix} {r : Nat} {j : Fin m.width} :
    (r, j) ∈ m.ones ↔ m.entry r j = true := by
  simp only [ones, entry, List.mem_flatMap, List.mem_map, Prod.exists, Option.any_eq_true,
    List.mem_zipIdx_iff_getElem?, Prod.mk.injEq]
  constructor
  · rintro ⟨row, _, hrow, i, hi, rfl, rfl⟩
    exact ⟨row, hrow, mem_onesOf.1 hi⟩
  · rintro ⟨row, hrow, hj⟩
    exact ⟨row, r, hrow, j, mem_onesOf.2 hj, rfl, rfl⟩

/-- Whether some column has a 1 in both rows. -/
def meets (m : BitMatrix) (r r' : Nat) : Bool :=
  (List.finRange m.width).any fun j => m.entry r j && m.entry r' j

/-! ## Reading a matrix -/

/-- Takes the rows at position `r` and below as rows of the given width, up to the first
    one of another width. -/
def rowsOfWidth (width : Nat) : (r : Nat) → List (List Bool) →
    Except ShapeError (List (Vector Bool width))
  | _, [] => .ok []
  | r, row :: rest =>
    if h : row.length = width then do
      let rest ← rowsOfWidth width (r + 1) rest
      return ⟨row.toArray, h⟩ :: rest
    else .error (.raggedRow r width row.length)

theorem length_rowsOfWidth {width : Nat} {rows : List (List Bool)} :
    ∀ {r : Nat} {rows' : List (Vector Bool width)}, rowsOfWidth width r rows = .ok rows' →
      rows'.length = rows.length := by
  induction rows with
  | nil => intro r rows' h; cases h; rfl
  | cons row rest ih =>
    intro r rows' h
    rw [rowsOfWidth] at h
    split at h
    · cases hrest : rowsOfWidth width (r + 1) rest with
      | error e => rw [hrest] at h; cases h
      | ok rest' =>
        rw [hrest] at h
        cases h
        simp [ih hrest]
    · cases h

/-- Reads a matrix from truth values. -/
def ofBits : List (List Bool) → Except ShapeError BitMatrix
  | [] => .error .noRows
  | first :: rest =>
    match h : rowsOfWidth first.length 0 (first :: rest) with
    | .error e => .error e
    | .ok rows => .ok ⟨first.length, rows, fun hnil => by simpa [hnil] using length_rowsOfWidth h⟩

/-- Reads a matrix from rows of entries: the checks that `from_rows` makes before it
    builds the links. -/
def ofRows {α : Type} [Entry α] (rows : List (List α)) : Except ShapeError BitMatrix :=
  ofBits (rows.map (·.map Entry.isOne))

end BitMatrix

end ExactCover
