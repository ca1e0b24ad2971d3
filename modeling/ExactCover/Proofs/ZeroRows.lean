import ExactCover.Proofs.Embedding
import ExactCover.Proofs.Solving

/-!
# Rows without 1s

A row without 1s is not linked to anything, so a search does not meet it. It only counts
when rows are numbered: wherever it is put in, the rows from there on move down by one
position, and the search goes on as before under the new positions.

Results:
* `embeds_insertZeros`: a matrix with a further row of zeros is the same problem up to
  the positions of rows.
* `ofRows_insertIdx`: which matrix is read from rows with a further row of zeros.
* `solve_insertIdx_zeros`: what is reported of such rows.
-/

namespace ExactCover

open BitMatrix

/-! ## Positions -/

/-- The position of row `r` after a further row was put in at position `p`. -/
def shiftFrom (p r : Nat) : Nat :=
  if r < p then r else r + 1

section

variable {p r : Nat}

theorem shiftFrom_of_lt (h : r < p) : shiftFrom p r = r := if_pos h

theorem shiftFrom_of_le (h : p ≤ r) : shiftFrom p r = r + 1 := if_neg (not_lt.2 h)

/-- Every other position is that of a row from before. -/
theorem exists_shiftFrom (h : r ≠ p) : ∃ r', shiftFrom p r' = r := by
  rcases Nat.lt_or_gt_of_ne h with hlt | hgt
  · exact ⟨r, shiftFrom_of_lt hlt⟩
  · exact ⟨r - 1, by rw [shiftFrom_of_le (by omega)]; omega⟩

theorem shiftFrom_strictMono (p : Nat) : StrictMono (shiftFrom p) := by
  intro r r' h
  unfold shiftFrom
  split <;> split <;> omega

theorem shiftFrom_lt_succ_iff {n : Nat} (hp : p ≤ n) : shiftFrom p r < n + 1 ↔ r < n := by
  unfold shiftFrom
  split <;> omega

theorem getElem?_insertIdx_shiftFrom {γ : Type} (l : List γ) (p r : Nat) (a : γ) :
    (l.insertIdx p a)[shiftFrom p r]? = l[r]? := by
  rcases Nat.lt_or_ge r p with hlt | hge
  · rw [shiftFrom_of_lt hlt, List.getElem?_insertIdx_of_lt hlt]
  · rw [shiftFrom_of_le hge, List.getElem?_insertIdx_of_gt (Nat.lt_succ_of_le hge),
      Nat.succ_sub_one]

end

/-! ## The matrix with a row of zeros -/

namespace BitMatrix

variable {m : BitMatrix} {p r : Nat}

/-- The matrix with a further row of zeros at position `p`. -/
def insertZeros (m : BitMatrix) (p : Nat) : BitMatrix where
  width := m.width
  rows := m.rows.insertIdx p (Vector.replicate m.width false)
  rows_ne_nil := fun hnil => by
    have hlength := congrArg List.length hnil
    have hpos := List.length_pos_iff.2 m.rows_ne_nil
    rw [List.length_insertIdx, List.length_nil] at hlength
    split at hlength <;> omega

/-- A column of the matrix, as a column of the one with a row of zeros. -/
def sameColumn (m : BitMatrix) (p : Nat) (j : Fin m.width) : Fin (m.insertZeros p).width := j

theorem sameColumn_injective (p : Nat) : Function.Injective (m.sameColumn p) :=
  Function.injective_id

theorem finRange_width_insertZeros (p : Nat) :
    List.finRange (m.insertZeros p).width = (List.finRange m.width).map (m.sameColumn p) :=
  (List.map_id _).symm

theorem height_insertZeros (hp : p ≤ m.height) : (m.insertZeros p).height = m.height + 1 :=
  List.length_insertIdx_of_le_length hp _

theorem entry_insertZeros (p r : Nat) (j : Fin m.width) :
    (m.insertZeros p).entry (shiftFrom p r) (m.sameColumn p j) = m.entry r j := by
  show (m.rows.insertIdx p _)[shiftFrom p r]?.any (fun row : Vector Bool m.width => row[j]) = _
  rw [getElem?_insertIdx_shiftFrom]
  rfl

theorem entry_insertZeros_self (p : Nat) (j : Fin m.width) :
    (m.insertZeros p).entry p (m.sameColumn p j) = false := by
  show (m.rows.insertIdx p _)[p]?.any (fun row : Vector Bool m.width => row[j]) = _
  rw [List.getElem?_insertIdx_self]
  split
  · exact Vector.getElem_replicate _
  · rfl

theorem hasOne_insertZeros (p r : Nat) : (m.insertZeros p).hasOne (shiftFrom p r) = m.hasOne r := by
  unfold hasOne
  rw [finRange_width_insertZeros, List.any_map]
  simp only [Function.comp_def, entry_insertZeros]

theorem hasOne_insertZeros_self (p : Nat) : (m.insertZeros p).hasOne p = false := by
  unfold hasOne
  rw [finRange_width_insertZeros, List.any_map]
  simp only [Function.comp_def, entry_insertZeros_self]
  simp

/-- The number of 1s as a sum over the rows. -/
theorem length_ones (m : BitMatrix) :
    m.ones.length = (m.rows.map fun row => (onesOf row).length).sum := by
  have hlength : ∀ one : Vector Bool m.width × Nat,
      ((onesOf one.1).map (one.2, ·)).length = (onesOf one.1).length := fun _ => List.length_map _
  have hrows := congrArg (List.map fun row => (onesOf row).length) (List.zipIdx_map_fst 0 m.rows)
  rw [List.map_map] at hrows
  rw [ones, List.length_flatMap, ← hrows]
  exact congrArg List.sum (List.map_congr_left fun one _ => hlength one)

theorem length_ones_insertZeros (hp : p ≤ m.height) :
    (m.insertZeros p).ones.length = m.ones.length := by
  have hzeros : (onesOf (Vector.replicate m.width false)).length = 0 := by simp [onesOf]
  have hperm := (List.perm_insertIdx (Vector.replicate m.width false) m.rows hp).map
    fun row => (onesOf row).length
  rw [length_ones, length_ones, insertZeros, hperm.sum_eq, List.map_cons, List.sum_cons, hzeros,
    Nat.zero_add]

/-- Rows with a further row of zeros are read as the matrix with such a row. -/
theorem ofRows_insertIdx {α : Type} [Entry α] {rows : List (List α)} {zeros : List α}
    (hm : ofRows rows = .ok m) (hp : p ≤ rows.length) (hlength : zeros.length = m.width)
    (hzeros : ∀ a ∈ zeros, Entry.isOne a = false) :
    ofRows (rows.insertIdx p zeros) = .ok (m.insertZeros p) := by
  obtain ⟨-, hwidth⟩ := width_of_ofRows hm
  obtain ⟨hheight, hentry⟩ := entry_of_ofRows hm
  have hne : rows.insertIdx p zeros ≠ [] :=
    List.ne_nil_of_mem ((List.mem_insertIdx hp).2 (.inl rfl))
  have hwidth' : ∀ row ∈ rows.insertIdx p zeros, row.length = m.width := by
    intro row hrow
    rcases (List.mem_insertIdx hp).1 hrow with rfl | hrow
    · exact hlength
    · exact hwidth row hrow
  obtain ⟨m', hm', hheight', hmwidth', hentry'⟩ := exists_ofRows hne hwidth'
  rw [hm']
  refine congrArg Except.ok (ext_entry ?_ hmwidth' fun r j hj hj' => ?_)
  · rw [hheight', height_insertZeros (hheight ▸ hp), hheight, List.length_insertIdx_of_le_length hp]
  · rw [hentry', isOneAt]
    show _ = (m.insertZeros p).entry r (m.sameColumn p ⟨j, hj'⟩)
    by_cases hr : r = p
    · subst hr
      rw [entry_insertZeros_self, List.getElem?_insertIdx_self, if_pos hp]
      show (zeros[j]?).any Entry.isOne = false
      cases hcell : zeros[j]? with
      | none => rfl
      | some a => exact hzeros a (List.mem_of_getElem? hcell)
    · obtain ⟨r, rfl⟩ := exists_shiftFrom hr
      rw [entry_insertZeros, hentry, getElem?_insertIdx_shiftFrom, isOneAt]

end BitMatrix

/-! ## The search -/

namespace Residual

variable {m : BitMatrix} {p : Nat}

/-- A further row of zeros leaves the same problem, up to the positions of rows. -/
theorem embeds_insertZeros (hp : p ≤ m.height) :
    (whole m).Embeds (m.sameColumn p) (shiftFrom p) (whole (m.insertZeros p)) where
  injective := sameColumn_injective p
  columns := finRange_width_insertZeros p
  rows := by
    show (List.range (m.insertZeros p).height).filter (m.insertZeros p).hasOne =
      ((List.range m.height).filter m.hasOne).map (shiftFrom p)
    have hsorted : (((List.range m.height).filter m.hasOne).map (shiftFrom p)).Pairwise (· < ·) :=
      List.pairwise_map.2 ((List.pairwise_lt_range.filter _).imp fun h => shiftFrom_strictMono p h)
    refine (List.pairwise_lt_range.filter _).eq_of_mem_iff hsorted fun r => ?_
    simp only [List.mem_filter, List.mem_map, List.mem_range, height_insertZeros hp]
    constructor
    · rintro ⟨hr, hone⟩
      have hne : r ≠ p := by
        rintro rfl
        rw [hasOne_insertZeros_self] at hone
        cases hone
      obtain ⟨r, rfl⟩ := exists_shiftFrom hne
      exact ⟨r, ⟨(shiftFrom_lt_succ_iff hp).1 hr, (hasOne_insertZeros p r).symm.trans hone⟩, rfl⟩
    · rintro ⟨r, ⟨hr, hone⟩, rfl⟩
      exact ⟨(shiftFrom_lt_succ_iff hp).2 hr, (hasOne_insertZeros p r).trans hone⟩
  ones r _ _ := by
    rw [finRange_width_insertZeros, List.filter_map]
    simp only [Function.comp_def, entry_insertZeros]

/-- The rows of some exact covers, under other positions. -/
def renumber (rename : Nat → Nat) (found : Array (List Nat)) : Array (List Nat) :=
  found.map (·.map rename)

/-- A visitor that keeps exact covers does the same with them under other positions of
    their rows. -/
theorem collect_renumber (rename : Nat → Nat) (cap : Cap) (found : Array (List Nat))
    (rows : List Nat) :
    cap.collect (renumber rename found) (rows.map rename) =
      mapAnswer (renumber rename) (cap.collect found rows) := by
  unfold Cap.collect renumber
  simp only [← Array.map_push, Array.size_map]
  split <;> rfl

/-- The search finds the same exact covers, under the new positions, and does the same
    work. -/
theorem explore_insertZeros (hp : p ≤ m.height) (cap : Cap) :
    (whole (m.insertZeros p)).explore cap.collect [] (#[], 0) =
      mapAnswer (Prod.map (renumber (shiftFrom p)) id)
        ((whole m).explore cap.collect [] (#[], 0)) := by
  have hempty : renumber (shiftFrom p) #[] = #[] := Array.map_empty
  calc (whole (m.insertZeros p)).explore cap.collect [] (#[], 0)
      = (whole m).explore (fun found rows => cap.collect found (rows.map (shiftFrom p))) []
          (renumber (shiftFrom p) #[], 0) := by
        rw [hempty]
        exact (embeds_insertZeros hp).explore_eq cap.collect [] (#[], 0)
    _ = _ := explore_mapAnswer (collect_renumber (shiftFrom p) cap) (whole m) [] #[] 0

end Residual

section

variable {α : Type} [Entry α] {rows : List (List α)} {zeros : List α} {width p : Nat}

theorem reportOf_insertZeros {m : BitMatrix} (hp : p ≤ m.height)
    (answer : ForInStep (Array (List Nat) × Nat)) :
    reportOf (m.insertZeros p) (mapAnswer (Prod.map (Residual.renumber (shiftFrom p)) id) answer) =
      { reportOf m answer with
        height := m.height + 1
        solutions := (reportOf m answer).solutions.map (·.map (shiftFrom p)) } := by
  unfold reportOf
  rw [height_insertZeros hp, length_ones_insertZeros hp]
  cases answer <;> simp [mapAnswer, ForInStep.value, isDone, insertZeros, Residual.renumber]

/-- **Rows without 1s are invisible to the search.** When a row of zeros is put into
    rows of one width, at any position and with any cap, the search reports the same
    exact covers in the same order, with all rows from this position on one further
    down, and the rows of each exact cover in the same order. Of the rest of the report
    only the number of rows changes: the updates are the same, and so is whether the cap
    ended the search. -/
theorem solve_insertIdx_zeros (hne : rows ≠ []) (hwidth : ∀ row ∈ rows, row.length = width)
    (hp : p ≤ rows.length) (hlength : zeros.length = width)
    (hzeros : ∀ a ∈ zeros, Entry.isOne a = false) (cap : Cap) :
    ∃ report, solve rows cap = .ok report ∧
      solve (rows.insertIdx p zeros) cap = .ok { report with
        height := report.height + 1
        solutions := report.solutions.map (·.map (shiftFrom p)) } := by
  obtain ⟨m, hm, hheight, rfl, -⟩ := exists_ofRows hne hwidth
  have hp' : p ≤ m.height := hheight ▸ hp
  refine ⟨_, solve_eq_reportOf hm cap, ?_⟩
  rw [solve_eq_reportOf (ofRows_insertIdx hm hp hlength hzeros) cap,
    Residual.explore_insertZeros hp', reportOf_insertZeros hp']
  rfl

/-- A row of zeros between the pairs: the second pair moves down. -/
theorem solve_insertIdx_zeros_pairs :
    ∃ report, solve pairs (.ofNat 1) = .ok report ∧
      solve [[1, 0], [0, 0], [0, 1], [1, 1]] (.ofNat 1) = .ok { report with
        height := report.height + 1
        solutions := report.solutions.map (·.map (shiftFrom 1)) } := by
  have hne : pairs ≠ [] := by decide
  have hwidth : ∀ row ∈ pairs, row.length = 2 := by decide
  exact solve_insertIdx_zeros hne hwidth (by decide : 1 ≤ pairs.length)
    (by decide : [0, 0].length = 2) (by decide) (.ofNat 1)

end

end ExactCover
