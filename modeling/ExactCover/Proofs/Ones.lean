import Mathlib
import ExactCover.BitMatrix

/-!
# The 1s of a matrix by rank

The 1s of a matrix are numbered in the order in which they are listed, row by row and
from left to right. A rank thus stands for a 1 in a row and a column, and ranks grow
from left to right in a row and from top to bottom in a column.

Results:
* `map_rowOf_onesInColumn`, `map_columnOf_onesInRow`: the 1s of a column and of a row,
  in order.
* `mem_restOfRow`, `mem_choiceColumns`: what the other 1s of the row of a 1 are, and in
  which columns a row has 1s.
-/

namespace ExactCover

namespace BitMatrix

variable {m : BitMatrix}

/-- The ranks of the 1s of a matrix. -/
abbrev One (m : BitMatrix) := Fin m.ones.length

/-- The row of a 1. -/
def rowOf (m : BitMatrix) (i : m.One) : Nat := m.ones[i].1

/-- The column of a 1. -/
def columnOf (m : BitMatrix) (i : m.One) : Fin m.width := m.ones[i].2

/-- The 1s of a column, from top to bottom. -/
def onesInColumn (m : BitMatrix) (j : Fin m.width) : List m.One :=
  (List.finRange _).filter (m.columnOf · = j)

/-- The 1s of a row, from left to right. -/
def onesInRow (m : BitMatrix) (r : Nat) : List m.One :=
  (List.finRange _).filter (m.rowOf · = r)

/-- The other 1s of the row of `i`: those to the right of `i`, and then those to the
    left. -/
def restOfRow (m : BitMatrix) (i : m.One) : List m.One :=
  (m.onesInRow (m.rowOf i)).filter (i < ·) ++ (m.onesInRow (m.rowOf i)).filter (· < i)

/-- The columns in which the row of `i` has 1s, in cyclic order from `i` on. -/
def choiceColumns (m : BitMatrix) (i : m.One) : List (Fin m.width) :=
  (i :: m.restOfRow i).map m.columnOf

/-! ## Ranks, rows and columns -/

theorem entry_of_one (i : m.One) : m.entry (m.rowOf i) (m.columnOf i) = true :=
  mem_ones.1 (List.getElem_mem _)

theorem exists_one {r : Nat} {j : Fin m.width} (h : m.entry r j = true) :
    ∃ i : m.One, m.rowOf i = r ∧ m.columnOf i = j := by
  obtain ⟨i, hi, hone⟩ := List.getElem_of_mem (mem_ones.2 h)
  exact ⟨⟨i, hi⟩, by simp [rowOf, hone], by simp [columnOf, hone]⟩

theorem lt_height_of_entry {r : Nat} {j : Fin m.width} (h : m.entry r j = true) : r < m.height := by
  unfold entry at h
  obtain ⟨row, hrow, -⟩ := (Option.any_eq_true _ _).1 h
  exact (List.getElem?_eq_some_iff.1 hrow).1

theorem rowOf_lt (i : m.One) : m.rowOf i < m.height :=
  lt_height_of_entry (entry_of_one i)

theorem pairwise_zipIdx {α : Type} (l : List α) (k : Nat) :
    (l.zipIdx k).Pairwise fun a b => a.2 < b.2 := by
  have h : ((l.zipIdx k).map Prod.snd).Pairwise (· < ·) := by
    rw [List.zipIdx_map_snd]
    exact List.pairwise_lt_range'
  exact List.pairwise_map.1 h

/-- The 1s are listed row by row, and from left to right in each row. -/
theorem pairwise_ones (m : BitMatrix) :
    m.ones.Pairwise fun a b => a.1 < b.1 ∨ a.1 = b.1 ∧ a.2 < b.2 := by
  refine List.pairwise_flatMap.2 ⟨fun row _ => ?_, ?_⟩
  · refine List.pairwise_map.2 ?_
    have h : (onesOf row.1).Pairwise (· < ·) := (List.pairwise_lt_finRange _).filter _
    exact h.imp fun hlt => .inr ⟨rfl, hlt⟩
  · refine (pairwise_zipIdx m.rows 0).imp fun {row row'} hlt a ha b hb => ?_
    obtain ⟨_, -, rfl⟩ := List.mem_map.1 ha
    obtain ⟨_, -, rfl⟩ := List.mem_map.1 hb
    exact .inl hlt

theorem lt_of_one_lt {i i' : m.One} (h : i < i') :
    m.rowOf i < m.rowOf i' ∨ m.rowOf i = m.rowOf i' ∧ m.columnOf i < m.columnOf i' :=
  List.pairwise_iff_getElem.1 (pairwise_ones m) i i' i.isLt i'.isLt h

theorem rowOf_lt_of_lt {i i' : m.One} (h : i < i') (hcolumn : m.columnOf i = m.columnOf i') :
    m.rowOf i < m.rowOf i' := by
  rcases lt_of_one_lt h with hlt | ⟨-, hlt⟩
  · exact hlt
  · exact absurd hcolumn (ne_of_lt hlt)

theorem columnOf_lt_of_lt {i i' : m.One} (h : i < i') (hrow : m.rowOf i = m.rowOf i') :
    m.columnOf i < m.columnOf i' := by
  rcases lt_of_one_lt h with hlt | ⟨-, hlt⟩
  · exact absurd hrow (ne_of_lt hlt)
  · exact hlt

/-- A 1 is known by its row and its column. -/
theorem one_ext {i i' : m.One} (hrow : m.rowOf i = m.rowOf i')
    (hcolumn : m.columnOf i = m.columnOf i') : i = i' := by
  rcases lt_trichotomy i i' with h | h | h
  · exact absurd hrow (ne_of_lt (rowOf_lt_of_lt h hcolumn))
  · exact h
  · exact absurd hrow.symm (ne_of_lt (rowOf_lt_of_lt h hcolumn.symm))

/-! ## The 1s of a column and of a row -/

@[simp] theorem mem_onesInColumn {j : Fin m.width} {i : m.One} :
    i ∈ m.onesInColumn j ↔ m.columnOf i = j := by
  simp [onesInColumn]

@[simp] theorem mem_onesInRow {r : Nat} {i : m.One} : i ∈ m.onesInRow r ↔ m.rowOf i = r := by
  simp [onesInRow]

theorem pairwise_onesInColumn (j : Fin m.width) : (m.onesInColumn j).Pairwise (· < ·) :=
  (List.pairwise_lt_finRange _).filter _

theorem pairwise_onesInRow (r : Nat) : (m.onesInRow r).Pairwise (· < ·) :=
  (List.pairwise_lt_finRange _).filter _

theorem nodup_onesInColumn (j : Fin m.width) : (m.onesInColumn j).Nodup :=
  (pairwise_onesInColumn j).imp ne_of_lt

theorem nodup_onesInRow (r : Nat) : (m.onesInRow r).Nodup :=
  (pairwise_onesInRow r).imp ne_of_lt

/-- The rows of the 1s of a column that are kept by a filter on rows. -/
theorem map_rowOf_filter (j : Fin m.width) (keep : Nat → Bool) :
    ((m.onesInColumn j).filter (keep <| m.rowOf ·)).map m.rowOf =
      (List.range m.height).filter fun r => m.entry r j && keep r := by
  have hleft : (((m.onesInColumn j).filter (keep <| m.rowOf ·)).map m.rowOf).Pairwise (· < ·) := by
    refine List.pairwise_map.2 (((pairwise_onesInColumn j).filter _).imp_of_mem ?_)
    intro i i' hi hi' hlt
    have hj := (mem_onesInColumn.1 (List.mem_filter.1 hi).1)
    have hj' := (mem_onesInColumn.1 (List.mem_filter.1 hi').1)
    exact rowOf_lt_of_lt hlt (hj.trans hj'.symm)
  refine hleft.eq_of_mem_iff (List.pairwise_lt_range.filter _) fun {r} => ?_
  simp only [List.mem_map, List.mem_filter, mem_onesInColumn, List.mem_range, Bool.and_eq_true]
  constructor
  · rintro ⟨i, ⟨rfl, hkeep⟩, rfl⟩
    exact ⟨rowOf_lt i, entry_of_one i, hkeep⟩
  · rintro ⟨-, hentry, hkeep⟩
    obtain ⟨i, rfl, rfl⟩ := exists_one hentry
    exact ⟨i, ⟨rfl, hkeep⟩, rfl⟩

theorem map_rowOf_onesInColumn (j : Fin m.width) :
    (m.onesInColumn j).map m.rowOf = (List.range m.height).filter (m.entry · j) := by
  simpa using map_rowOf_filter j fun _ => true

theorem map_columnOf_onesInRow (r : Nat) :
    (m.onesInRow r).map m.columnOf = (List.finRange m.width).filter (m.entry r ·) := by
  have hleft : ((m.onesInRow r).map m.columnOf).Pairwise (· < ·) := by
    refine List.pairwise_map.2 ((pairwise_onesInRow r).imp_of_mem ?_)
    intro i i' hi hi' hlt
    exact columnOf_lt_of_lt hlt ((mem_onesInRow.1 hi).trans (mem_onesInRow.1 hi').symm)
  refine hleft.eq_of_mem_iff ((List.pairwise_lt_finRange _).filter _) fun {j} => ?_
  simp only [List.mem_map, mem_onesInRow, List.mem_filter, List.mem_finRange, true_and]
  constructor
  · rintro ⟨i, rfl, rfl⟩
    exact entry_of_one i
  · intro hentry
    obtain ⟨i, rfl, rfl⟩ := exists_one hentry
    exact ⟨i, rfl, rfl⟩

/-! ## The rest of a row -/

theorem mem_restOfRow {i i' : m.One} :
    i' ∈ m.restOfRow i ↔ m.rowOf i' = m.rowOf i ∧ i' ≠ i := by
  simp only [restOfRow, List.mem_append, List.mem_filter, mem_onesInRow, decide_eq_true_eq,
    ← and_or_left]
  rw [or_comm, ← ne_iff_lt_or_gt]

/-- An ascending list is split by each of its members into the smaller and the greater
    ones. -/
theorem eq_filter_append {k : Nat} {l : List (Fin k)} (hl : l.Pairwise (· < ·)) {i : Fin k}
    (hi : i ∈ l) : l = l.filter (· < i) ++ i :: l.filter (i < ·) := by
  have hright : (l.filter (· < i) ++ i :: l.filter (i < ·)).Pairwise (· < ·) := by
    refine List.pairwise_append.2 ⟨hl.filter _,
      List.pairwise_cons.2 ⟨fun i' hi' => ?_, hl.filter _⟩, fun a ha b hb => ?_⟩
    · simpa using (List.mem_filter.1 hi').2
    · have hai : a < i := by simpa using (List.mem_filter.1 ha).2
      rcases List.mem_cons.1 hb with rfl | hb
      · exact hai
      · exact hai.trans (by simpa using (List.mem_filter.1 hb).2)
  refine hl.eq_of_mem_iff hright fun {i'} => ?_
  simp only [List.mem_append, List.mem_filter, List.mem_cons, decide_eq_true_eq]
  rcases lt_trichotomy i' i with h | rfl | h
  · simp [h, ne_of_lt h, not_lt_of_gt h]
  · simp [hi]
  · simp [h, ne_of_gt h, not_lt_of_gt h]

/-- A row is split by each of its 1s into those to the left of it and those to the
    right. -/
theorem onesInRow_eq_append (i : m.One) :
    m.onesInRow (m.rowOf i) =
      (m.onesInRow (m.rowOf i)).filter (· < i) ++ i :: (m.onesInRow (m.rowOf i)).filter (i < ·) :=
  eq_filter_append (pairwise_onesInRow _) (by simp)

theorem cons_restOfRow_perm (i : m.One) :
    (i :: m.restOfRow i).Perm (m.onesInRow (m.rowOf i)) := by
  rw [onesInRow_eq_append i, restOfRow, ← List.cons_append]
  exact List.perm_append_comm

theorem nodup_cons_restOfRow (i : m.One) : (i :: m.restOfRow i).Nodup :=
  (cons_restOfRow_perm i).nodup_iff.2 (nodup_onesInRow _)

theorem nodup_restOfRow (i : m.One) : (m.restOfRow i).Nodup :=
  (List.nodup_cons.1 (nodup_cons_restOfRow i)).2

theorem columnOf_ne_of_mem_restOfRow {i i' : m.One} (h : i' ∈ m.restOfRow i) :
    m.columnOf i' ≠ m.columnOf i := by
  obtain ⟨hrow, hne⟩ := mem_restOfRow.1 h
  exact fun hcolumn => hne (one_ext hrow hcolumn)

theorem choiceColumns_perm (i : m.One) :
    (m.choiceColumns i).Perm ((List.finRange m.width).filter (m.entry (m.rowOf i) ·)) := by
  rw [← map_columnOf_onesInRow]
  exact (cons_restOfRow_perm i).map _

@[simp] theorem mem_choiceColumns {i : m.One} {j : Fin m.width} :
    j ∈ m.choiceColumns i ↔ m.entry (m.rowOf i) j = true := by
  rw [(choiceColumns_perm i).mem_iff]
  simp

theorem nodup_choiceColumns (i : m.One) : (m.choiceColumns i).Nodup :=
  (choiceColumns_perm i).nodup_iff.2 ((List.nodup_finRange _).filter _)

end BitMatrix

end ExactCover
