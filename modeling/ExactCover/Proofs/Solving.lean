import ExactCover.Solve
import ExactCover.Proofs.ExactCovers
import ExactCover.Proofs.Reading
import ExactCover.Proofs.Simulation

/-!
# What the search of a matrix reports

Without a cap the search reports the exact covers of the matrix, in the order in which
the recursion finds them: each of them once, and nothing else.

Results:
* `solve_eq_reportOf`: rows are searched to a report of how their matrix is explored,
  whatever the cap.
* `solve_eq_coversFrom`: the reported rows are those that the recursion on the matrix
  lists.
* `solve_exact_covers`: the reported rows are the exact covers, each reported once.
-/

namespace ExactCover

open BitMatrix

/-! ## Collecting without a cap -/

theorem collect_unlimited (found : Array (List Nat)) (rows : List Nat) :
    Cap.unlimited.collect found rows = .yield (found.push rows) := rfl

theorem foldUntil_collect_unlimited (l : List (List Nat)) (found : Array (List Nat)) :
    foldUntil Cap.unlimited.collect l found = .yield (found.toList ++ l).toArray := by
  induction l generalizing found with
  | nil => simp [foldUntil]
  | cons rows l ih =>
    rw [foldUntil_cons_yield (collect_unlimited found rows), ih]
    simp

/-- Whether an answer ends a fold. -/
def isDone {β : Type} : ForInStep β → Bool
  | .yield _ => false
  | .done _ => true

/-- What a visitor that keeps exact covers makes of those of a matrix. -/
def collected (m : BitMatrix) (cap : Cap) : ForInStep (Array (List Nat)) :=
  foldUntil cap.collect ((Residual.whole m).coversFrom []) #[]

variable {α : Type} [Entry α] {rows : List (List α)} {width : Nat} {S : Finset Nat}

/-- The report on a matrix, from what a visitor that keeps exact covers made of them and
    from the updates. -/
def reportOf (m : BitMatrix) (answer : ForInStep (Array (List Nat) × Nat)) : Report where
  height := m.height
  width := m.width
  ones := m.ones.length
  solutions := answer.value.1.toList
  updates := answer.value.2
  stopped := isDone answer

/-- Whatever the cap, the rows of a matrix are searched to a report, which tells how the
    matrix is explored by a visitor that keeps exact covers. -/
theorem solve_eq_reportOf {m : BitMatrix} (hm : ofRows rows = .ok m) (cap : Cap) :
    solve rows cap = .ok (reportOf m ((Residual.whole m).explore cap.collect [] (#[], 0))) := by
  have hrun : (Search.ofMatrix m).run cap.collect #[] = _ :=
    Search.run_after List.nodup_nil cap.collect 0 #[]
  rw [Residual.ofCovered_nil] at hrun
  unfold solve
  rw [hm]
  show (m.solve cap).mapError Failure.broken = _
  unfold BitMatrix.solve
  rw [hrun]
  cases (Residual.whole m).explore cap.collect [] (#[], 0) <;> rfl

theorem solve_eq_explore {m : BitMatrix} (hm : ofRows rows = .ok m) (cap : Cap) :
    ∃ report, solve rows cap = .ok report ∧
      report.solutions = ((Residual.whole m).explore cap.collect [] (#[], 0)).value.1.toList ∧
      report.updates = ((Residual.whole m).explore cap.collect [] (#[], 0)).value.2 ∧
      report.stopped = isDone ((Residual.whole m).explore cap.collect [] (#[], 0)) :=
  ⟨_, solve_eq_reportOf hm cap, rfl, rfl, rfl⟩

/-- The report holds what the visitor kept of the exact covers. -/
theorem solve_eq_collected_of_ofRows {m : BitMatrix} (hm : ofRows rows = .ok m) (cap : Cap) :
    ∃ report, solve rows cap = .ok report ∧ report.solutions = (collected m cap).value.toList ∧
      report.stopped = isDone (collected m cap) := by
  obtain ⟨report, hreport, hsolutions, -, hstopped⟩ := solve_eq_explore hm cap
  obtain ⟨work, hexplore⟩ :=
    Residual.explore_eq_foldUntil cap.collect (Residual.whole m) [] (#[], 0)
  rw [hexplore] at hsolutions hstopped
  refine ⟨report, hreport, ?_⟩
  rw [hsolutions, hstopped]
  unfold collected
  cases foldUntil cap.collect ((Residual.whole m).coversFrom []) #[] with
  | yield found => exact ⟨rfl, rfl⟩
  | done found => exact ⟨rfl, rfl⟩

theorem collected_unlimited (m : BitMatrix) :
    collected m .unlimited = .yield ((Residual.whole m).coversFrom []).toArray := by
  unfold collected
  rw [foldUntil_collect_unlimited]
  rfl

/-- Without a cap the search comes to its end. -/
theorem solve_unlimited_of_ofRows {m : BitMatrix} (hm : ofRows rows = .ok m) :
    ∃ report, solve rows .unlimited = .ok report ∧
      report.solutions = (Residual.whole m).coversFrom [] ∧ report.stopped = false := by
  obtain ⟨report, hreport, hsolutions, hstopped⟩ := solve_eq_collected_of_ofRows hm .unlimited
  rw [collected_unlimited] at hsolutions hstopped
  exact ⟨report, hreport, hsolutions, hstopped⟩

theorem solve_of_ofRows {m : BitMatrix} (hm : ofRows rows = .ok m) :
    ∃ report, solve rows .unlimited = .ok report ∧
      report.solutions = (Residual.whole m).coversFrom [] := by
  obtain ⟨report, hreport, hsolutions, -⟩ := solve_unlimited_of_ofRows hm
  exact ⟨report, hreport, hsolutions⟩

/-! ## Exact covers of rows -/

/-- The rows of `S` are an exact cover: each of them has a 1, and every column has a 1
    in exactly one of them. -/
structure CoversExactly (rows : List (List α)) (width : Nat) (S : Finset Nat) : Prop where
  meets : ∀ r ∈ S, ∃ j, isOneAt rows r j = true
  unique : ∀ j < width, ∃! r, r ∈ S ∧ isOneAt rows r j = true

/-- The exact covers of rows are the solutions of the matrix that is read from them. -/
theorem coversExactly_iff {m : BitMatrix} (hheight : m.height = rows.length)
    (hwidth : ∀ row ∈ rows, row.length = m.width)
    (hentry : ∀ r (j : Fin m.width), m.entry r j = isOneAt rows r j) :
    CoversExactly rows m.width S ↔ (Residual.whole m).Solves S := by
  constructor
  · intro h
    have hmeets : ∀ r ∈ S, ∃ j : Fin m.width, m.entry r j = true := by
      intro r hr
      obtain ⟨j, hj⟩ := h.meets r hr
      exact ⟨⟨j, (lt_of_isOneAt hwidth hj).2⟩, (hentry r _).trans hj⟩
    refine ⟨fun r hr => ?_, fun r hr => ?_, fun j _ => ?_⟩
    · obtain ⟨j, hj⟩ := h.meets r hr
      exact List.mem_range.2 (hheight ▸ (lt_of_isOneAt hwidth hj).1)
    · obtain ⟨j, hj⟩ := hmeets r hr
      exact ⟨j, List.mem_finRange j, hj⟩
    · simpa only [hentry] using h.unique j j.isLt
  · intro h
    refine ⟨fun r hr => ?_, fun j hj => ?_⟩
    · obtain ⟨j, -, hj⟩ := h.meets r hr
      exact ⟨j, (hentry r j).symm.trans hj⟩
    · simpa only [hentry] using h.unique ⟨j, hj⟩ (List.mem_finRange _)

/-- **The search refines the recursion, with its order.** Rows of one width are read as
    the matrix with the same 1s, and the rows that the search reports are those that the
    recursion on that matrix lists, in the same order. -/
theorem solve_eq_coversFrom (hne : rows ≠ []) (hwidth : ∀ row ∈ rows, row.length = width) :
    ∃ m report,
      ofRows rows = .ok m ∧ m.height = rows.length ∧ m.width = width ∧
      (∀ r (j : Fin m.width), m.entry r j = isOneAt rows r j) ∧
      solve rows .unlimited = .ok report ∧
      report.solutions = (Residual.whole m).coversFrom [] := by
  obtain ⟨m, hm, hheight, hmwidth, hentry⟩ := exists_ofRows hne hwidth
  obtain ⟨report, hreport, hsolutions⟩ := solve_of_ofRows hm
  exact ⟨m, report, hm, hheight, hmwidth, hentry, hreport, hsolutions⟩

/-- Two rows that cover both columns together, and a third one that covers them
    alone. -/
def pairs : List (List Nat) := [[1, 0], [0, 1], [1, 1]]

theorem solve_eq_coversFrom_pairs :
    ∃ m report, ofRows pairs = .ok m ∧ solve pairs .unlimited = .ok report ∧
      report.solutions = (Residual.whole m).coversFrom [] := by
  have hne : pairs ≠ [] := by decide
  have hwidth : ∀ row ∈ pairs, row.length = 2 := by decide
  obtain ⟨m, report, hm, -, -, -, hreport, hsolutions⟩ := solve_eq_coversFrom hne hwidth
  exact ⟨m, report, hm, hreport, hsolutions⟩

/-- **The search reports the exact covers, each of them once.** For rows of one width,
    the search ends with a report. Each list in it holds different positions of rows
    that are an exact cover, and every exact cover is the set of rows of exactly one
    list. -/
theorem solve_exact_covers (hne : rows ≠ []) (hwidth : ∀ row ∈ rows, row.length = width) :
    ∃ report,
      solve rows .unlimited = .ok report ∧
      (∀ l ∈ report.solutions,
        l.Nodup ∧ (∀ r ∈ l, r < rows.length) ∧ CoversExactly rows width l.toFinset) ∧
      (∀ S, CoversExactly rows width S → report.solutions.countP (·.toFinset = S) = 1) ∧
      (width = 0 → report.solutions = [[]]) := by
  obtain ⟨m, hm, hheight, rfl, hentry⟩ := exists_ofRows hne hwidth
  obtain ⟨report, hreport, hsolutions⟩ := solve_of_ofRows hm
  have hcovers : report.solutions = (Residual.whole m).covers := by
    rw [hsolutions, Residual.coversFrom_eq]
    exact List.map_id _
  refine ⟨report, hreport, fun l hl => ?_, fun S hS => ?_, fun hzero => ?_⟩
  · rw [hcovers] at hl
    obtain ⟨hnodup, hsolves⟩ := Residual.solves_of_mem_covers hl
    refine ⟨hnodup, fun r hr => ?_, (coversExactly_iff hheight hwidth hentry).2 hsolves⟩
    rw [← hheight]
    exact List.mem_range.1 (hsolves.rows r (List.mem_toFinset.2 hr))
  · rw [hcovers]
    exact Residual.countP_covers (Residual.tight_whole m)
      ((coversExactly_iff hheight hwidth hentry).1 hS)
  · have hnone : (Residual.whole m).shortest? = none := by
      rw [Residual.shortest?_eq_none_iff, Residual.whole, List.finRange_eq_nil_iff]
      exact hzero
    rw [hcovers, Residual.covers_of_none hnone]

/-- The third row alone is found once. -/
theorem solve_exact_covers_pairs :
    ∃ report, solve pairs .unlimited = .ok report ∧
      report.solutions.countP (·.toFinset = {2}) = 1 := by
  have hne : pairs ≠ [] := by decide
  have hwidth : ∀ row ∈ pairs, row.length = 2 := by decide
  have hcovers : CoversExactly pairs 2 {2} := by
    refine ⟨fun r hr => ?_, fun j hj => ⟨2, ⟨Finset.mem_singleton_self 2, ?_⟩, ?_⟩⟩
    · rw [Finset.mem_singleton.1 hr]
      exact ⟨0, by decide⟩
    · interval_cases j <;> decide
    · rintro r ⟨hr, -⟩
      exact Finset.mem_singleton.1 hr
  obtain ⟨report, hreport, -, hcomplete, -⟩ := solve_exact_covers hne hwidth
  exact ⟨report, hreport, hcomplete {2} hcovers⟩

-- A row without 1s takes part in no exact cover.
example : (solve [[1, 0], [0, 0], [0, 1], [1, 1]] .unlimited).toOption.map (·.solutions) =
    some [[0, 2], [3]] := by decide +kernel

end ExactCover
