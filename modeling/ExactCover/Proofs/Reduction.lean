import ExactCover.Proofs.Embedding
import ExactCover.Proofs.Visits

/-!
# To cover columns is to reduce the matrix

A search with some columns covered is a search of a smaller matrix: the one that loses
the 1s of all rows that meet the columns, and then the columns themselves. What is
linked in the two searches differs, in one of them most of it being left over from
before the coverings; but the residual problems are the same up to the names of the
columns, so both searches show the same rows and do the same work. As the smaller matrix
is known by the set of the columns, it does not matter in which order they were covered.

Results:
* `entry_reduce`: the 1s of the smaller matrix.
* `embeds_reduce`: it is what is left of the matrix, up to the names of the columns.
* `run_eq_run_reduce`: the searches with covered columns and of the smaller matrix.
-/

namespace ExactCover

open BitMatrix

variable {m : BitMatrix} {C : Finset (Fin m.width)} {js : List (Fin m.width)}

/-! ## The reduced matrix -/

namespace BitMatrix

/-- The matrix in which the rows with a 1 in the columns `C` have no 1 at all. -/
def clearRows (m : BitMatrix) (C : Finset (Fin m.width)) : BitMatrix where
  width := m.width
  rows := m.rows.map fun row =>
    if ∃ j ∈ C, row.get j = true then Vector.replicate m.width false else row
  rows_ne_nil := by simpa using m.rows_ne_nil

/-- The columns outside `C`, from left to right. -/
def columnsOutside (m : BitMatrix) (C : Finset (Fin m.width)) : List (Fin m.width) :=
  (List.finRange m.width).filter (· ∉ C)

/-- The matrix without the columns `C`. -/
def deleteColumns (m : BitMatrix) (C : Finset (Fin m.width)) : BitMatrix where
  width := (m.columnsOutside C).length
  rows := m.rows.map fun row => Vector.ofFn fun j => row[(m.columnsOutside C).get j]
  rows_ne_nil := by simpa using m.rows_ne_nil

/-- The matrix without the columns `C` and without the 1s of the rows that meet them. -/
def reduce (m : BitMatrix) (C : Finset (Fin m.width)) : BitMatrix :=
  (m.clearRows C).deleteColumns C

theorem entry_clearRows (r : Nat) (j : Fin m.width) :
    (m.clearRows C).entry r j = (m.entry r j && decide (∀ j' ∈ C, m.entry r j' = false)) := by
  show (m.rows.map _)[r]?.any (fun row : Vector Bool m.width => row[j]) = _
  unfold entry
  rw [List.getElem?_map]
  cases m.rows[r]? with
  | none => rfl
  | some row =>
    simp only [Option.map_some, Option.any_some]
    by_cases hmeets : ∃ j ∈ C, row.get j = true
    · have hclear : ¬ ∀ j ∈ C, row[j] = false := fun h => by
        obtain ⟨j, hj, hone⟩ := hmeets
        cases (h j hj).symm.trans hone
      rw [if_pos hmeets, decide_eq_false hclear, Bool.and_false]
      exact Vector.getElem_replicate _
    · have hclear : ∀ j ∈ C, row[j] = false := fun j hj =>
        Bool.eq_false_iff.2 fun hone => hmeets ⟨j, hj, hone⟩
      rw [if_neg hmeets, decide_eq_true hclear, Bool.and_true]

theorem entry_deleteColumns (r : Nat) (j : Fin (m.columnsOutside C).length) :
    (m.deleteColumns C).entry r j = m.entry r ((m.columnsOutside C).get j) := by
  show (m.rows.map _)[r]?.any (fun row : Vector Bool (m.columnsOutside C).length => row[j]) = _
  unfold entry
  rw [List.getElem?_map]
  cases m.rows[r]? with
  | none => rfl
  | some row => exact Vector.getElem_ofFn _

/-- The column of the matrix that a column of the smaller one has been. -/
def originOf (m : BitMatrix) (C : Finset (Fin m.width)) (j : Fin (m.reduce C).width) :
    Fin m.width :=
  (m.columnsOutside C).get j

theorem originOf_injective (C : Finset (Fin m.width)) : Function.Injective (m.originOf C) :=
  List.nodup_iff_injective_get.1 ((List.nodup_finRange m.width).filter _)

/-- The columns of the smaller matrix keep their order. -/
theorem map_originOf (C : Finset (Fin m.width)) :
    (List.finRange (m.reduce C).width).map (m.originOf C) = m.columnsOutside C :=
  List.map_get_finRange _

/-- The smaller matrix has the 1s of the rows that do not meet the columns. -/
theorem entry_reduce (r : Nat) (j : Fin (m.reduce C).width) :
    (m.reduce C).entry r j =
      (m.entry r (m.originOf C j) && decide (∀ j' ∈ C, m.entry r j' = false)) :=
  (@entry_deleteColumns (m.clearRows C) C r j).trans (entry_clearRows r (m.originOf C j))

-- The first row meets the deleted column, so it loses its other 1 as well.
example :
    ((BitMatrix.mk 3 [#v[true, true, false], #v[false, true, true]] (by simp)).reduce {0}).rows.map
      Vector.toList = [[false, false], [true, true]] := by decide

theorem height_reduce (C : Finset (Fin m.width)) : (m.reduce C).height = m.height := by
  simp [height, reduce, clearRows, deleteColumns]

end BitMatrix

/-! ## What is left of the matrix -/

namespace Residual

theorem columnsOutside_toFinset (js : List (Fin m.width)) :
    m.columnsOutside js.toFinset = (ofCovered m js).columns := by
  unfold columnsOutside ofCovered
  apply List.filter_congr
  intro j _
  simp

theorem entry_reduce_toFinset (r : Nat) (j : Fin (m.reduce js.toFinset).width) :
    (m.reduce js.toFinset).entry r j =
      (m.entry r (m.originOf js.toFinset j) && m.avoids js r) := by
  rw [entry_reduce]
  congr 1
  rw [Bool.eq_iff_iff, decide_eq_true_eq, avoids_iff]
  simp

/-- A row that avoids the covered columns keeps its 1s. -/
theorem map_originOf_ones {r : Nat} (havoids : m.avoids js r = true) :
    ((List.finRange (m.reduce js.toFinset).width).filter ((m.reduce js.toFinset).entry r ·)).map
      (m.originOf js.toFinset) = (List.finRange m.width).filter (m.entry r ·) := by
  have hentry : ((m.reduce js.toFinset).entry r ·) = (m.entry r ·) ∘ m.originOf js.toFinset := by
    funext j
    rw [entry_reduce_toFinset, havoids, Bool.and_true]
    rfl
  rw [hentry, ← List.filter_map, map_originOf, columnsOutside_toFinset, ofCovered,
    List.filter_filter]
  apply List.filter_congr
  intro j _
  cases hj : m.entry r j with
  | false => rfl
  | true =>
    have hnotMem : j ∉ js := fun hmem => by
      rw [avoids_iff.1 havoids j hmem] at hj
      cases hj
    simp [hnotMem]

theorem avoids_of_hasOne_reduce {r : Nat} (h : (m.reduce js.toFinset).hasOne r = true) :
    m.avoids js r = true := by
  obtain ⟨j, -, hj⟩ := List.any_eq_true.1 h
  rw [entry_reduce_toFinset] at hj
  exact (Bool.and_eq_true_iff.1 hj).2

/-- A row of the smaller matrix has a 1 if it had one and avoids the covered columns. -/
theorem hasOne_reduce (js : List (Fin m.width)) (r : Nat) :
    (m.reduce js.toFinset).hasOne r = (m.hasOne r && m.avoids js r) := by
  rw [Bool.eq_iff_iff, Bool.and_eq_true]
  constructor
  · intro h
    obtain ⟨j, -, hj⟩ := List.any_eq_true.1 h
    rw [entry_reduce_toFinset] at hj
    exact ⟨hasOne_of_entry (Bool.and_eq_true_iff.1 hj).1, avoids_of_hasOne_reduce h⟩
  · rintro ⟨h, havoids⟩
    obtain ⟨j, -, hj⟩ := List.any_eq_true.1 h
    have hmem : j ∈ (List.finRange m.width).filter (m.entry r ·) :=
      List.mem_filter.2 ⟨List.mem_finRange j, hj⟩
    rw [← map_originOf_ones havoids] at hmem
    obtain ⟨j', hj', -⟩ := List.mem_map.1 hmem
    exact hasOne_of_entry (List.mem_filter.1 hj').2

/-- The smaller matrix is what is left of the matrix, up to the names of the columns. -/
theorem embeds_reduce (js : List (Fin m.width)) :
    (whole (m.reduce js.toFinset)).Embeds (m.originOf js.toFinset) id (ofCovered m js) where
  injective := originOf_injective _
  columns := by
    rw [← columnsOutside_toFinset, ← map_originOf]
    rfl
  rows := by
    show ((List.range m.height).filter fun r => m.avoids js r).filter m.hasOne =
      ((List.range (m.reduce js.toFinset).height).filter (m.reduce js.toFinset).hasOne).map id
    rw [List.map_id, height_reduce, List.filter_filter]
    apply List.filter_congr
    intro r _
    rw [hasOne_reduce]
  ones := by
    intro r _ hone
    exact (map_originOf_ones (avoids_of_hasOne_reduce hone)).symm

/-- To explore what is left of the matrix is to explore the smaller matrix. -/
theorem explore_reduce {β : Type} (js : List (Fin m.width)) (visit : β → List Nat → ForInStep β)
    (state : β × Nat) :
    (ofCovered m js).explore visit [] state =
      (whole (m.reduce js.toFinset)).explore visit [] state := by
  have hexplore := (embeds_reduce js).explore_eq visit [] state
  simp only [List.map_id] at hexplore
  exact hexplore

/-- What is left of the matrix has the exact covers of the smaller matrix, in the same
    order. -/
theorem coversFrom_reduce (js : List (Fin m.width)) :
    (ofCovered m js).coversFrom [] = (whole (m.reduce js.toFinset)).coversFrom [] := by
  -- A visitor that keeps all it is shown keeps the same in both explorations.
  obtain ⟨work, hleft⟩ := explore_eq_foldUntil Cap.unlimited.collect (ofCovered m js) [] (#[], 0)
  obtain ⟨work', hright⟩ :=
    explore_eq_foldUntil Cap.unlimited.collect (whole (m.reduce js.toFinset)) [] (#[], 0)
  rw [foldUntil_collect_unlimited, explore_reduce] at hleft
  rw [foldUntil_collect_unlimited, hleft] at hright
  injection hright with hpair
  simpa using (Prod.mk.inj hpair).1

end Residual

/-! ## Searches -/

namespace Search

variable {β : Type} {s : Search m.width m.ones.length}

/-- With this visitor the search makes these visits, comes to this result, is stopped or
    not, and adds this number to the updates. -/
def Performs {c k : Nat} (s : Search c k) (visit : β → List Nat → ForInStep β) (b : β)
    (log : VisitLog) (result : β) (stopped : Bool) (work : Nat) : Prop :=
  ∃ outcome, s.Visits visit b outcome log ∧ outcome.result = result ∧
    outcome.stopped = stopped ∧ outcome.search.updates = s.updates + work

/-- What a search does is told by the exploration of what is left of the matrix. -/
theorem performs_of_nested (h : Nested m js s) (visit : β → List Nat → ForInStep β) (b : β) :
    s.Performs visit b (visitsOf visit b ((Residual.ofCovered m js).coversFrom []))
      ((Residual.ofCovered m js).explore visit [] (b, 0)).value.1
      (isDone ((Residual.ofCovered m js).explore visit [] (b, 0)))
      ((Residual.ofCovered m js).explore visit [] (b, 0)).value.2 := by
  obtain ⟨outcome, hvisits, -⟩ := visits_of_nested h visit b
  have hrun := run_of_nested h visit b
  have hwork := Residual.explore_addWork visit (Residual.ofCovered m js) [] s.updates b 0
  rw [Nat.add_zero] at hwork
  rw [hvisits.run, hwork] at hrun
  refine ⟨outcome, hvisits, ?_⟩
  cases hrun
  cases (Residual.ofCovered m js).explore visit [] (b, 0) with
  | yield state => exact ⟨rfl, rfl, rfl⟩
  | done state => exact ⟨rfl, rfl, rfl⟩

/-- **To cover columns is to reduce the matrix.** From a properly nested state with the
    columns `js` covered, and from the fresh links of the matrix without these columns
    and without the 1s of the rows that meet them, a search makes the same visits with
    the same result, and adds the same number to the updates, whatever the visitor. And
    so does a search from any other state in which the same columns are covered, in
    whatever order. -/
theorem run_eq_run_reduce (h : Nested m js s) (visit : β → List Nat → ForInStep β) (b : β) :
    ∃ log result stopped work,
      s.Performs visit b log result stopped work ∧
      (ofMatrix (m.reduce js.toFinset)).Performs visit b log result stopped work ∧
      ∀ js' s', Nested m js' s' → js'.toFinset = js.toFinset →
        s'.Performs visit b log result stopped work := by
  have hreduce : ∀ js' s', Nested m js' s' → js'.toFinset = js.toFinset →
      s'.Performs visit b
        (visitsOf visit b ((Residual.whole (m.reduce js.toFinset)).coversFrom []))
        ((Residual.whole (m.reduce js.toFinset)).explore visit [] (b, 0)).value.1
        (isDone ((Residual.whole (m.reduce js.toFinset)).explore visit [] (b, 0)))
        ((Residual.whole (m.reduce js.toFinset)).explore visit [] (b, 0)).value.2 := by
    intro js' s' h' hcolumns
    rw [← hcolumns, ← Residual.coversFrom_reduce, ← Residual.explore_reduce]
    exact performs_of_nested h' visit b
  have hfresh := performs_of_nested (.start : Nested (m.reduce js.toFinset) [] _) visit b
  rw [Residual.ofCovered_nil] at hfresh
  exact ⟨_, _, _, _, hreduce js s h rfl, hfresh, hreduce⟩

/-- The sample with two of its columns covered, in both orders, and without these
    columns. -/
theorem run_eq_run_reduce_sample :
    ∃ s s' log result stopped work, Nested sample [3, 0] s ∧ Nested sample [0, 3] s' ∧
      s.Performs (fun count _ => ForInStep.yield (count + 1)) 0 log result stopped work ∧
      s'.Performs (fun count _ => ForInStep.yield (count + 1)) 0 log result stopped work ∧
      (ofMatrix (sample.reduce {0, 3})).Performs (fun count _ => ForInStep.yield (count + 1)) 0 log
        result stopped work := by
  have hnodup : ([3, 0] : List (Fin sample.width)).Nodup := by decide
  have hnodup' : ([0, 3] : List (Fin sample.width)).Nodup := by decide
  have hcolumns : ([3, 0] : List (Fin sample.width)).toFinset = {0, 3} := by decide
  have hcolumns' : ([0, 3] : List (Fin sample.width)).toFinset = [3, 0].toFinset := by decide
  obtain ⟨u, h⟩ := exists_nested hnodup
  obtain ⟨u', h'⟩ := exists_nested hnodup'
  obtain ⟨log, result, stopped, work, hs, hfresh, hother⟩ :=
    run_eq_run_reduce h (fun count _ => ForInStep.yield (count + 1)) 0
  rw [hcolumns] at hfresh
  exact ⟨_, _, log, result, stopped, work, h, h', hs, hother _ _ h' hcolumns', hfresh⟩

end Search

end ExactCover
