import ExactCover.Proofs.Covering

/-!
# The lists of a properly nested state

What the links mean at any time between properly nested coverings: the horizontal list
holds the columns that are not covered, and a vertical list the rows that avoid the
columns covered before its own, or all covered columns if its own is not covered.

Results:
* `nested_lists`: the lists in both directions, and the sizes.
-/

namespace ExactCover

open BitMatrix

variable {m : BitMatrix} {js later earlier : List (Fin m.width)} {j : Fin m.width}

namespace LinkedMatrix

variable {L : LinkedMatrix m.width m.ones.length} {gone : List m.One}

/-- The vertical list of `h` holds the given rows from top to bottom, and is counted
    right. -/
structure ListsRows {c k : Nat} (L : LinkedMatrix c k) (h : Header c) (rows : List Nat) : Prop where
  down : L.rowsDown h = .ok rows
  up : L.rowsUp h = .ok rows.reverse
  size : L.size h = rows.length

theorem Lacks.map_row (h : L.Lacks gone) (is : List m.One) :
    (is.map m.node).map L.row = is.map m.rowOf := by
  rw [List.map_map]
  exact List.map_congr_left fun i _ => h.row_node i

theorem Lacks.nodesDown (h : L.Lacks gone) (j : Fin m.width) :
    L.nodesDown (headerOf j) = .ok ((m.standing gone j).map m.node) := by
  rw [LinkedMatrix.nodesDown, h.head]
  exact listFrom_next (h.vertical j)

theorem Lacks.nodesUp (h : L.Lacks gone) (j : Fin m.width) :
    L.nodesUp (headerOf j) = .ok ((m.standing gone j).map m.node).reverse := by
  rw [LinkedMatrix.nodesUp, h.head]
  exact listFrom_prev (h.vertical j)

theorem Lacks.listsRows (h : L.Lacks gone) (j : Fin m.width) :
    L.ListsRows (headerOf j) ((m.standing gone j).map m.rowOf) where
  down := by
    unfold rowsDown
    rw [h.nodesDown, ← h.map_row]
    rfl
  up := by
    unfold rowsUp
    rw [h.nodesUp, ← h.map_row]
    exact congrArg Except.ok List.map_reverse
  size := by rw [h.size, List.length_map]

theorem listsRows_ofCovered (hnodup : js.Nodup) (hj : j ∉ js) :
    (ofCovered m js).ListsRows (headerOf j)
      ((List.range m.height).filter fun r => m.entry r j && m.avoids js r) := by
  rw [← map_rowOf_standing hnodup hj]
  exact (lacks_ofCovered hnodup).listsRows j

theorem listsRows_ofCovered_append (hnodup : (later ++ j :: earlier).Nodup) :
    (ofCovered m (later ++ j :: earlier)).ListsRows (headerOf j)
      ((List.range m.height).filter fun r => m.entry r j && m.avoids earlier r) := by
  rw [← map_rowOf_standing_append hnodup]
  exact (lacks_ofCovered hnodup).listsRows j

/-- The vertical list of a covered column is kept as it was when the column was
    covered. -/
theorem nodesDown_ofCovered_append (hnodup : (later ++ j :: earlier).Nodup) :
    (ofCovered m (later ++ j :: earlier)).nodesDown (headerOf j) =
      (ofCovered m earlier).nodesDown (headerOf j) := by
  have hearlier := (List.nodup_cons.1 (List.nodup_append.1 hnodup).2.1).2
  rw [(lacks_ofCovered hnodup).nodesDown, (lacks_ofCovered hearlier).nodesDown,
    standing_hiddenAfter_append hnodup]

theorem activeColumns_ofCovered (hnodup : js.Nodup) :
    (ofCovered m js).activeColumns =
      .ok (((List.finRange m.width).filter (· ∉ js)).map headerOf) :=
  listFrom_next (horizontal_ofCovered hnodup)

theorem activeColumnsBackward_ofCovered (hnodup : js.Nodup) :
    (ofCovered m js).activeColumnsBackward =
      .ok (((List.finRange m.width).filter (· ∉ js)).map headerOf).reverse :=
  listFrom_prev (horizontal_ofCovered hnodup)

end LinkedMatrix

namespace Search

/-- **The meaning of the links.** In every properly nested state with the columns `js`
    covered, the last one first: the horizontal list holds the other columns in the
    order of the matrix; the list of an active column holds the rows that meet it and
    avoid `js`; the list of a covered column holds the rows that meet it and avoid what
    was covered before it, whatever was covered since; and sizes are the lengths of the
    lists. Every active column can be covered, and the one that was covered last can be
    uncovered. -/
theorem nested_lists {s : Search m.width m.ones.length} (h : Nested m js s) :
    s.links.activeColumns = .ok (((List.finRange m.width).filter (· ∉ js)).map headerOf) ∧
    s.links.activeColumnsBackward =
      .ok (((List.finRange m.width).filter (· ∉ js)).map headerOf).reverse ∧
    (∀ j ∉ js, s.links.ListsRows (headerOf j)
      ((List.range m.height).filter fun r => m.entry r j && m.avoids js r)) ∧
    (∀ later j earlier, js = later ++ j :: earlier → s.links.ListsRows (headerOf j)
      ((List.range m.height).filter fun r => m.entry r j && m.avoids earlier r)) ∧
    (∀ j ∉ js, ∃ t, s.cover (headerOf j) = .ok t) ∧
    (∀ j earlier, js = j :: earlier → ∃ t, s.uncover (headerOf j) = .ok t) := by
  obtain ⟨hnodup, hs⟩ := h.eq_after
  rw [hs]
  refine ⟨LinkedMatrix.activeColumns_ofCovered hnodup,
    LinkedMatrix.activeColumnsBackward_ofCovered hnodup,
    fun j hj => LinkedMatrix.listsRows_ofCovered hnodup hj, ?_,
    fun j hj => ⟨_, cover_after (List.nodup_cons.2 ⟨hj, hnodup⟩)⟩, ?_⟩
  · rintro later j earlier rfl
    exact LinkedMatrix.listsRows_ofCovered_append hnodup
  · rintro j earlier rfl
    exact ⟨_, uncover_after hnodup⟩

/-- A matrix with seven columns and one exact cover. -/
def sample : BitMatrix where
  width := 7
  rows := [
    #v[false, false, true, false, true, true, false],
    #v[true, false, false, true, false, false, true],
    #v[false, true, true, false, false, true, false],
    #v[true, false, false, true, false, false, false],
    #v[false, true, false, false, false, false, true],
    #v[false, false, false, true, true, false, true]]
  rows_ne_nil := by simp

instance : NeZero sample.width := ⟨by decide⟩

/-- The column that was covered second has lost the rows that meet the first, and keeps
    the others. -/
theorem nested_lists_sample :
    ∃ s, Nested sample [3, 0] s ∧ s.links.rowsDown (headerOf 0) = .ok [1, 3] ∧
      s.links.rowsDown (headerOf 3) = .ok [5] ∧ s.links.rowsUp (headerOf 6) = .ok [4] := by
  have hnodup : ([3, 0] : List (Fin sample.width)).Nodup := by decide
  obtain ⟨u, h⟩ := exists_nested hnodup
  obtain ⟨-, -, hactive, hcovered, -, -⟩ := nested_lists h
  exact ⟨_, h, (hcovered [3] 0 [] rfl).down, (hcovered [] 3 [0] rfl).down,
    (hactive 6 (by decide)).up⟩

end Search

end ExactCover
