import ExactCover.BitMatrix
import Mathlib

/-!
# Reading a matrix

Rows of one width are read as a matrix with the same 1s, and no other rows are. What is
refused is no rows at all, or else the first row of another width than row 0.

Results:
* `exists_ofRows`: reading succeeds on such rows, and what the entries of the matrix
  are.
* `width_of_ofRows`, `ofRows_eq_error_iff`: reading succeeds on no other rows, and how
  it fails.
* `eq_iff_of_ofRows`: when rows are read as the same matrix.
-/

namespace ExactCover

/-- Whether the rows have a 1 at a place. There are none outside the rows. -/
def isOneAt {α : Type} [Entry α] (rows : List (List α)) (r j : Nat) : Bool :=
  (rows[r]?.bind (·[j]?)).any Entry.isOne

theorem lt_of_isOneAt {α : Type} [Entry α] {rows : List (List α)} {width r j : Nat}
    (hwidth : ∀ row ∈ rows, row.length = width) (h : isOneAt rows r j = true) :
    r < rows.length ∧ j < width := by
  simp only [isOneAt, Option.any_eq_true, Option.bind_eq_some_iff] at h
  obtain ⟨cell, ⟨row, hrow, hcell⟩, -⟩ := h
  obtain ⟨hr, rfl⟩ := List.getElem?_eq_some_iff.1 hrow
  obtain ⟨hj, -⟩ := List.getElem?_eq_some_iff.1 hcell
  exact ⟨hr, hwidth _ (List.getElem_mem hr) ▸ hj⟩

/-- Both lists have rows of the same widths, with 1s at the same places. -/
structure Alike {α β : Type} [Entry α] [Entry β] (rows : List (List α)) (rows' : List (List β)) :
    Prop where
  widths : rows.map List.length = rows'.map List.length
  ones : ∀ r j, isOneAt rows r j = isOneAt rows' r j

/-- Row `i` is the first one whose width is not that of row 0. -/
structure FirstRagged (widths : List Nat) (i expected found : Nat) : Prop where
  first : widths[0]? = some expected
  row : widths[i]? = some found
  differs : found ≠ expected
  before : ∀ i' < i, widths[i']? = some expected

namespace BitMatrix

variable {width : Nat}

theorem rowsOfWidth_eq_ok {bits : List (List Bool)} (hwidth : ∀ row ∈ bits, row.length = width)
    (r : Nat) : ∃ rows, rowsOfWidth width r bits = .ok rows ∧ rows.map Vector.toList = bits := by
  induction bits generalizing r with
  | nil => exact ⟨[], rfl, rfl⟩
  | cons row bits ih =>
    obtain ⟨hrow, hwidth⟩ := List.forall_mem_cons.1 hwidth
    obtain ⟨rows, hrows, hmap⟩ := ih hwidth (r + 1)
    refine ⟨⟨row.toArray, hrow⟩ :: rows, ?_, by simp [hmap, Vector.toList]⟩
    rw [rowsOfWidth, dif_pos hrow, hrows]
    rfl

theorem ofBits_eq_ok {bits : List (List Bool)} (hne : bits ≠ [])
    (hwidth : ∀ row ∈ bits, row.length = width) :
    ∃ m, ofBits bits = .ok m ∧ m.width = width ∧ m.rows.map Vector.toList = bits := by
  cases bits with
  | nil => exact absurd rfl hne
  | cons first rest =>
    obtain rfl : first.length = width := hwidth first List.mem_cons_self
    obtain ⟨rows, hrows, hmap⟩ := rowsOfWidth_eq_ok hwidth 0
    have hnil : rows ≠ [] := by
      rintro rfl
      cases hmap
    refine ⟨⟨first.length, rows, hnil⟩, ?_, rfl, hmap⟩
    rw [ofBits]
    split
    · next h => rw [hrows] at h; cases h
    · next h => rw [hrows] at h; cases h; rfl

theorem width_of_rowsOfWidth {bits : List (List Bool)} {r : Nat} {rows : List (Vector Bool width)}
    (h : rowsOfWidth width r bits = .ok rows) : ∀ row ∈ bits, row.length = width := by
  induction bits generalizing r rows with
  | nil => exact fun row hrow => absurd hrow List.not_mem_nil
  | cons first bits ih =>
    rw [rowsOfWidth] at h
    split at h
    · next hfirst =>
      cases hrest : rowsOfWidth width (r + 1) bits with
      | error e => rw [hrest] at h; cases h
      | ok rest => exact List.forall_mem_cons.2 ⟨hfirst, ih hrest⟩
    · cases h

theorem width_of_ofBits {bits : List (List Bool)} {m : BitMatrix} (h : ofBits bits = .ok m) :
    bits ≠ [] ∧ ∀ row ∈ bits, row.length = m.width := by
  cases bits with
  | nil => cases h
  | cons first rest =>
    rw [ofBits] at h
    split at h
    · cases h
    · next hrows =>
      cases h
      exact ⟨List.cons_ne_nil first rest, width_of_rowsOfWidth hrows⟩

theorem entry_eq {m : BitMatrix} {bits : List (List Bool)} (hmap : m.rows.map Vector.toList = bits)
    (r : Nat) (j : Fin m.width) : m.entry r j = (bits[r]?.bind (·[j.val]?)).any id := by
  subst hmap
  unfold entry
  rw [List.getElem?_map]
  cases m.rows[r]? with
  | none => rfl
  | some row => simp

/-- Rows of one width are read as a matrix of that width with the same 1s. -/
theorem exists_ofRows {α : Type} [Entry α] {rows : List (List α)} (hne : rows ≠ [])
    (hwidth : ∀ row ∈ rows, row.length = width) :
    ∃ m, ofRows rows = .ok m ∧ m.height = rows.length ∧ m.width = width ∧
      ∀ r (j : Fin m.width), m.entry r j = isOneAt rows r j := by
  have hne' : rows.map (·.map Entry.isOne) ≠ [] := by simpa using hne
  have hwidth' : ∀ row ∈ rows.map (·.map Entry.isOne), row.length = width := by
    simpa using hwidth
  obtain ⟨m, hm, hmwidth, hmap⟩ := ofBits_eq_ok hne' hwidth'
  have hheight : m.height = rows.length := by
    have hlength := congrArg List.length hmap
    rwa [List.length_map, List.length_map] at hlength
  refine ⟨m, hm, hheight, hmwidth, fun r j => ?_⟩
  unfold isOneAt
  rw [entry_eq hmap, List.getElem?_map]
  cases rows[r]? with
  | none => rfl
  | some row =>
    show ((row.map Entry.isOne)[j.val]?).any id = (row[j.val]?).any Entry.isOne
    rw [List.getElem?_map, Option.any_map]
    rfl

/-- Only rows of one width are read as a matrix. -/
theorem width_of_ofRows {α : Type} [Entry α] {rows : List (List α)} {m : BitMatrix}
    (h : ofRows rows = .ok m) : rows ≠ [] ∧ ∀ row ∈ rows, row.length = m.width := by
  obtain ⟨hne, hwidth⟩ := width_of_ofBits h
  exact ⟨by simpa using hne, by simpa using hwidth⟩

/-! ## What is refused -/

/-- The rows are read up to the first one of another width, which the error names. -/
theorem rowsOfWidth_eq_error_iff {bits : List (List Bool)} {r : Nat} {e : ShapeError} :
    rowsOfWidth width r bits = .error e ↔ ∃ i found, (bits.map List.length)[i]? = some found ∧
      found ≠ width ∧ (∀ i' < i, (bits.map List.length)[i']? = some width) ∧
      e = .raggedRow (r + i) width found := by
  induction bits generalizing r with
  | nil => simp [rowsOfWidth]
  | cons row bits ih =>
    by_cases hrow : row.length = width
    · have hrest : rowsOfWidth width r (row :: bits) = .error e ↔
          rowsOfWidth width (r + 1) bits = .error e := by
        rw [rowsOfWidth, dif_pos hrow]
        cases rowsOfWidth width (r + 1) bits <;> simp [bind, Except.bind, pure, Except.pure]
      rw [hrest, ih]
      constructor
      · rintro ⟨i, found, hfound, hne, hbefore, rfl⟩
        refine ⟨i + 1, found, hfound, hne, fun i' hi' => ?_, by rw [Nat.add_assoc, Nat.add_comm 1]⟩
        cases i' with
        | zero => exact congrArg some hrow
        | succ i' => exact hbefore i' (Nat.lt_of_succ_lt_succ hi')
      · rintro ⟨i, found, hfound, hne, hbefore, rfl⟩
        cases i with
        | zero => exact absurd ((Option.some.inj hfound).symm.trans hrow) hne
        | succ i =>
          exact ⟨i, found, hfound, hne, fun i' hi' => hbefore (i' + 1) (Nat.succ_lt_succ hi'),
            by rw [Nat.add_assoc, Nat.add_comm 1]⟩
    · rw [rowsOfWidth, dif_neg hrow]
      constructor
      · intro h
        cases h
        exact ⟨0, row.length, rfl, hrow, fun i' hi' => absurd hi' (Nat.not_lt_zero i'), rfl⟩
      · rintro ⟨i, found, hfound, -, hbefore, rfl⟩
        cases i with
        | zero => rw [← Option.some.inj hfound, Nat.add_zero]
        | succ i => exact absurd (Option.some.inj (hbefore 0 (Nat.succ_pos i))) hrow

theorem ofBits_eq_error_iff {bits : List (List Bool)} {e : ShapeError} :
    ofBits bits = .error e ↔ bits = [] ∧ e = .noRows ∨
      ∃ i expected found, FirstRagged (bits.map List.length) i expected found ∧
        e = .raggedRow i expected found := by
  cases bits with
  | nil =>
    constructor
    · intro h
      cases h
      exact .inl ⟨rfl, rfl⟩
    · rintro (⟨-, rfl⟩ | ⟨i, expected, found, hragged, -⟩)
      · rfl
      · cases hragged.first
  | cons first rest =>
    have hread : ofBits (first :: rest) = .error e ↔
        rowsOfWidth first.length 0 (first :: rest) = .error e := by
      rw [ofBits]
      split <;> simp_all
    rw [hread, rowsOfWidth_eq_error_iff]
    constructor
    · rintro ⟨i, found, hrow, hne, hbefore, rfl⟩
      exact .inr ⟨i, first.length, found, ⟨rfl, hrow, hne, hbefore⟩, by rw [Nat.zero_add]⟩
    · rintro (⟨hnil, -⟩ | ⟨i, expected, found, hragged, rfl⟩)
      · cases hnil
      · obtain rfl : first.length = expected := Option.some.inj hragged.first
        exact ⟨i, found, hragged.row, hragged.differs, hragged.before, by rw [Nat.zero_add]⟩

theorem ofRows_eq_error_iff {α : Type} [Entry α] {rows : List (List α)} {e : ShapeError} :
    ofRows rows = .error e ↔ rows = [] ∧ e = .noRows ∨
      ∃ i expected found, FirstRagged (rows.map List.length) i expected found ∧
        e = .raggedRow i expected found := by
  have hwidths : (rows.map (·.map Entry.isOne)).map List.length = rows.map List.length := by simp
  rw [ofRows, ofBits_eq_error_iff, hwidths, List.map_eq_nil_iff]

theorem ofRows_eq_noRows_iff {α : Type} [Entry α] {rows : List (List α)} :
    ofRows rows = .error .noRows ↔ rows = [] := by
  simp [ofRows_eq_error_iff]

theorem ofRows_eq_raggedRow_iff {α : Type} [Entry α] {rows : List (List α)}
    {i expected found : Nat} :
    ofRows rows = .error (.raggedRow i expected found) ↔
      FirstRagged (rows.map List.length) i expected found := by
  rw [ofRows_eq_error_iff]
  constructor
  · rintro (⟨-, h⟩ | ⟨i', expected', found', hragged, h⟩)
    · cases h
    · cases h
      exact hragged
  · intro hragged
    exact .inr ⟨i, expected, found, hragged, rfl⟩

theorem exists_ofRows_iff {α : Type} [Entry α] {rows : List (List α)} :
    (∃ m, ofRows rows = .ok m) ↔
      rows ≠ [] ∧ ¬ ∃ i expected found, FirstRagged (rows.map List.length) i expected found := by
  constructor
  · rintro ⟨m, hm⟩
    refine ⟨(width_of_ofRows hm).1, fun ⟨i, expected, found, hragged⟩ => ?_⟩
    cases hm.symm.trans (ofRows_eq_raggedRow_iff.2 hragged)
  · rintro ⟨hne, huniform⟩
    cases hrows : ofRows rows with
    | error e =>
      rcases ofRows_eq_error_iff.1 hrows with ⟨hnil, -⟩ | ⟨i, expected, found, hragged, -⟩
      · exact absurd hnil hne
      · exact absurd ⟨i, expected, found, hragged⟩ huniform
    | ok m => exact ⟨m, rfl⟩

/-! ## What a matrix retains of the rows -/

theorem entry_of_ofRows {α : Type} [Entry α] {rows : List (List α)} {m : BitMatrix}
    (h : ofRows rows = .ok m) :
    m.height = rows.length ∧ ∀ r (j : Fin m.width), m.entry r j = isOneAt rows r j := by
  obtain ⟨hne, hwidth⟩ := width_of_ofRows h
  obtain ⟨m', hm', hheight, -, hentry⟩ := exists_ofRows hne hwidth
  obtain rfl : m = m' := Except.ok.inj (h.symm.trans hm')
  exact ⟨hheight, hentry⟩

theorem map_length_of_ofRows {α : Type} [Entry α] {rows : List (List α)} {m : BitMatrix}
    (h : ofRows rows = .ok m) : rows.map List.length = List.replicate m.height m.width := by
  rw [(entry_of_ofRows h).1]
  refine List.eq_replicate_iff.2 ⟨List.length_map _, fun n hn => ?_⟩
  obtain ⟨row, hrow, rfl⟩ := List.mem_map.1 hn
  exact (width_of_ofRows h).2 row hrow

theorem height_ne_zero (m : BitMatrix) : m.height ≠ 0 :=
  fun h => m.rows_ne_nil (List.length_eq_zero_iff.1 h)

/-- A matrix is known by its shape and its 1s. -/
theorem ext_entry {m m' : BitMatrix} (hheight : m.height = m'.height) (hwidth : m.width = m'.width)
    (hentry : ∀ r j (hj : j < m.width) (hj' : j < m'.width),
      m.entry r ⟨j, hj⟩ = m'.entry r ⟨j, hj'⟩) :
    m = m' := by
  obtain ⟨width, rows, hne⟩ := m
  obtain ⟨width', rows', hne'⟩ := m'
  obtain rfl : width = width' := hwidth
  have hrows : rows = rows' := by
    refine List.ext_getElem hheight fun r hr hr' => Vector.ext fun j hj => ?_
    simpa [entry, hr, hr'] using hentry r j hj hj
  subst hrows
  rfl

/-- Rows are read as the same matrix if and only if they have the same shape and the
    same 1s. -/
theorem eq_iff_of_ofRows {α β : Type} [Entry α] [Entry β] {rows : List (List α)}
    {rows' : List (List β)} {m m' : BitMatrix} (hm : ofRows rows = .ok m)
    (hm' : ofRows rows' = .ok m') : m = m' ↔ Alike rows rows' := by
  obtain ⟨-, hwidth⟩ := width_of_ofRows hm
  obtain ⟨-, hwidth'⟩ := width_of_ofRows hm'
  have hentry := (entry_of_ofRows hm).2
  have hentry' := (entry_of_ofRows hm').2
  constructor
  · rintro rfl
    refine ⟨(map_length_of_ofRows hm).trans (map_length_of_ofRows hm').symm, fun r j => ?_⟩
    by_cases hj : j < m.width
    · exact (hentry r ⟨j, hj⟩).symm.trans (hentry' r ⟨j, hj⟩)
    · have hnot : isOneAt rows r j = false :=
        Bool.eq_false_iff.2 fun h => hj (lt_of_isOneAt hwidth h).2
      have hnot' : isOneAt rows' r j = false :=
        Bool.eq_false_iff.2 fun h => hj (lt_of_isOneAt hwidth' h).2
      rw [hnot, hnot']
  · intro h
    have hwidths := h.widths
    rw [map_length_of_ofRows hm, map_length_of_ofRows hm', List.replicate_inj] at hwidths
    obtain ⟨hheight, hzero | hmwidth⟩ := hwidths
    · exact absurd hzero m.height_ne_zero
    · refine ext_entry hheight hmwidth fun r j hj hj' => ?_
      rw [hentry, hentry']
      exact h.ones r j

end BitMatrix

end ExactCover
