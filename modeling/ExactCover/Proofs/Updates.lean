import ExactCover.Proofs.Frames
import ExactCover.Proofs.Visits

/-!
# What the updates count

The updates that a search reports are told by the tree of the recursion. Where the
recursion branches on a column the other 1s of its candidates are hidden, and where it
chooses a row those of the further rows that the row meets, so what is counted is a sum
over the tree. A search that is stopped has gone through a first part of the tree, in
the order of the recursion, and has counted what was hidden in this part.

Results:
* `explore_eq_foldUntil_moves`: an exploration as what it does, in order.
* `hidden_moves`, `work_eq_sum_branchings`: the sum over the tree.
* `updates_unlimited`, `updates_ofNat`: what is counted without and with a cap.
* `updates_measure`: all of this for the rows of a problem, and that to undo counts
  nothing.
-/

namespace ExactCover

open BitMatrix

theorem foldUntil_flatten {α β γ : Type} (f : β → α → ForInStep β) (g : γ → List α) (l : List γ)
    (b : β) :
    foldUntil f (l.flatMap g) b = foldUntil (fun b c => foldUntil f (g c) b) l b := by
  induction l generalizing b with
  | nil => rfl
  | cons c l ih =>
    rw [List.flatMap_cons, foldUntil_append]
    cases h : foldUntil f (g c) b with
    | yield b' => rw [foldUntil_cons_yield h, ← ih]
    | done b' => rw [foldUntil_cons_done h]

theorem sum_map_flatMap {ι γ : Type} (f : γ → Nat) (l : List ι) (g : ι → List γ) :
    ((l.flatMap g).map f).sum = (l.map fun i => ((g i).map f).sum).sum := by
  rw [List.map_flatMap, List.flatMap_def, List.sum_flatten, List.map_map]
  rfl

namespace Residual

variable {m : BitMatrix} {R : Residual m} {j : Fin m.width} {β : Type}

/-! ## The tree of the recursion -/

/-- The problems at which the recursion branches, each with the column that it branches
    on. -/
def branchings (R : Residual m) : List (Residual m × Fin m.width) :=
  match _hshortest : R.shortest? with
  | none => []
  | some j => (R, j) :: (R.candidates j).attach.flatMap fun ⟨r, _⟩ => (R.choose r).branchings
termination_by R.columns.length
decreasing_by exact columns_choose_lt ‹_› ‹_›

/-- What the recursion does. -/
inductive Move (m : BitMatrix) where
  /-- It branches on the column `j` of the problem `R`. -/
  | branch (R : Residual m) (j : Fin m.width)
  /-- It tries the row `r` for the column `j` of the problem `R`. -/
  | attempt (R : Residual m) (j : Fin m.width) (r : Nat)
  /-- It shows an exact cover. -/
  | visit (rows : List Nat)

/-- All that the recursion does after some rows are chosen, in order. -/
def moves (R : Residual m) (chosen : List Nat) : List (Move m) :=
  match _hshortest : R.shortest? with
  | none => [.visit chosen]
  | some j => .branch R j :: (R.candidates j).attach.flatMap fun ⟨r, _⟩ =>
      .attempt R j r :: (R.choose r).moves (chosen ++ [r])
termination_by R.columns.length
decreasing_by exact columns_choose_lt ‹_› ‹_›

/-- The number of nodes that a move hides: the other 1s of the candidates for a column,
    or those of the rows that a row meets in its other columns. -/
def Move.hides : Move m → Nat
  | .branch R j => ((R.candidates j).map (excess m)).sum
  | .attempt R j r => R.effort j r
  | .visit _ => 0

/-- The number of nodes that some moves hide. -/
def hidden (moves : List (Move m)) : Nat :=
  (moves.map Move.hides).sum

/-- The number of exact covers that a move shows. -/
def Move.visits : Move m → Nat
  | .visit _ => 1
  | _ => 0

/-- The moves up to and including the one that shows the exact cover with this number,
    counted from 1; all of them if fewer are shown. -/
def upToVisit (count : Nat) : List (Move m) → List (Move m)
  | [] => []
  | move :: moves => if count = 0 then [] else move :: upToVisit (count - move.visits) moves

theorem branchings_of_none (h : R.shortest? = none) : R.branchings = [] := by
  rw [branchings]
  exact match_shortest?_of_none h

theorem branchings_of_some (h : R.shortest? = some j) :
    R.branchings = (R, j) :: (R.candidates j).flatMap fun r => (R.choose r).branchings := by
  rw [branchings]
  refine (match_shortest?_of_some h).trans ?_
  exact congrArg ((R, j) :: ·) (flatMap_attach (fun r => (R.choose r).branchings) _)

theorem moves_of_none {chosen : List Nat} (h : R.shortest? = none) :
    R.moves chosen = [.visit chosen] := by
  rw [moves]
  exact match_shortest?_of_none h

theorem moves_of_some {chosen : List Nat} (h : R.shortest? = some j) :
    R.moves chosen = .branch R j :: (R.candidates j).flatMap fun r =>
      .attempt R j r :: (R.choose r).moves (chosen ++ [r]) := by
  rw [moves]
  refine (match_shortest?_of_some h).trans ?_
  exact congrArg (.branch R j :: ·)
    (flatMap_attach (fun r => .attempt R j r :: (R.choose r).moves (chosen ++ [r])) _)

theorem work_of_none (h : R.shortest? = none) : R.work = 0 := by
  rw [work]
  exact match_shortest?_of_none h

theorem work_of_some (h : R.shortest? = some j) :
    R.work = ((R.candidates j).map (excess m)).sum
      + ((R.candidates j).map fun r => R.effort j r + (R.choose r).work).sum := by
  rw [work]
  refine (match_shortest?_of_some h).trans ?_
  show _ + ((R.candidates j).attach.map fun x => R.effort j x.1 + (R.choose x.1).work).sum = _
  rw [List.attach_map_val (f := fun r => R.effort j r + (R.choose r).work)]

/-! ## Sums over the tree -/

theorem hidden_cons (move : Move m) (moves : List (Move m)) :
    hidden (move :: moves) = move.hides + hidden moves := rfl

theorem hidden_append (moves moves' : List (Move m)) :
    hidden (moves ++ moves') = hidden moves + hidden moves' := by
  simp [hidden]

theorem hidden_flatMap {ι : Type} (l : List ι) (g : ι → List (Move m)) :
    hidden (l.flatMap g) = (l.map fun i => hidden (g i)).sum :=
  sum_map_flatMap Move.hides l g

/-- All moves together hide as many nodes as the recursion adds up. -/
theorem hidden_moves (R : Residual m) (chosen : List Nat) : hidden (R.moves chosen) = R.work := by
  induction R using choose_induction generalizing chosen with
  | none R h => rw [moves_of_none h, work_of_none h]; rfl
  | some R j h ih =>
    rw [moves_of_some h, work_of_some h, hidden_cons, hidden_flatMap]
    congr 2
    apply List.map_congr_left
    intro r hr
    rw [hidden_cons, ih r hr]
    rfl

/-- What is hidden at the problem `R` itself when the recursion branches on the column
    `j` and tries all of its candidates: the 1s of the candidates, each less one, and
    then for each of the candidates the 1s, each row less one, of the rows that it meets
    outside the column. -/
def toll (R : Residual m) (j : Fin m.width) : Nat :=
  ((R.candidates j).map (excess m)).sum + ((R.candidates j).map (R.effort j)).sum

/-- The work is a sum over all problems at which the recursion branches. -/
theorem work_eq_sum_branchings (R : Residual m) :
    R.work = (R.branchings.map fun (R', j) => R'.toll j).sum := by
  induction R using choose_induction with
  | none R h => rw [work_of_none h, branchings_of_none h]; rfl
  | some R j h ih =>
    have hrest : ((R.candidates j).map fun r => (R.choose r).work).sum =
        (((R.candidates j).flatMap fun r => (R.choose r).branchings).map
          fun (R', j) => R'.toll j).sum := by
      rw [sum_map_flatMap]
      exact congrArg List.sum (List.map_congr_left ih)
    rw [work_of_some h, branchings_of_some h, List.sum_map_add, List.map_cons, List.sum_cons,
      ← hrest, ← Nat.add_assoc]
    rfl

/-! ## A first part of the tree -/

theorem upToVisit_zero (moves : List (Move m)) : upToVisit 0 moves = [] := by
  cases moves <;> rfl

theorem upToVisit_cons {count : Nat} (hcount : 0 < count) (move : Move m) (moves : List (Move m)) :
    upToVisit count (move :: moves) = move :: upToVisit (count - move.visits) moves := by
  rw [upToVisit, if_neg hcount.ne']

theorem upToVisit_isPrefix (count : Nat) (moves : List (Move m)) :
    upToVisit count moves <+: moves := by
  induction moves generalizing count with
  | nil => exact List.prefix_rfl
  | cons move moves ih =>
    rw [upToVisit]
    split
    · exact List.nil_prefix
    · exact (List.prefix_cons_inj _).2 (ih _)

/-- A greater cap is met later. -/
theorem upToVisit_isPrefix_of_le {count count' : Nat} (hle : count ≤ count')
    (moves : List (Move m)) :
    upToVisit count moves <+: upToVisit count' moves := by
  induction moves generalizing count count' with
  | nil => exact List.prefix_rfl
  | cons move moves ih =>
    rcases Nat.eq_zero_or_pos count with rfl | hcount
    · rw [upToVisit_zero]
      exact List.nil_prefix
    · rw [upToVisit_cons hcount, upToVisit_cons (hcount.trans_le hle)]
      exact (List.prefix_cons_inj _).2 (ih (Nat.sub_le_sub_right hle _))

theorem hidden_le_of_isPrefix {moves moves' : List (Move m)} (h : moves <+: moves') :
    hidden moves ≤ hidden moves' := by
  obtain ⟨rest, rfl⟩ := h
  rw [hidden_append]
  exact Nat.le_add_right _ _

/-! ## Exploring -/

/-- Makes a move: what it hides is counted, and an exact cover is shown to the
    visitor. -/
def perform (visit : β → List Nat → ForInStep β) (state : β × Nat) : Move m → ForInStep (β × Nat)
  | .visit rows => withWork state.2 (visit state.1 rows)
  | move => .yield (state.1, state.2 + move.hides)

section

variable {visit : β → List Nat → ForInStep β} {state : β × Nat} {rows : List Nat} {b : β}

theorem perform_visit_of_yield (h : visit state.1 rows = .yield b) :
    perform (m := m) visit state (.visit rows) = .yield (b, state.2) := by
  simp only [perform, h, withWork]

theorem perform_visit_of_done (h : visit state.1 rows = .done b) :
    perform (m := m) visit state (.visit rows) = .done (b, state.2) := by
  simp only [perform, h, withWork]

theorem perform_of_visits_eq_zero {move : Move m} (hmove : move.visits = 0) :
    perform visit state move = .yield (state.1, state.2 + move.hides) := by
  cases move with
  | visit rows => cases hmove
  | branch R j => rfl
  | attempt R j r => rfl

end

/-- To explore is to make one move after another until the visitor is done. -/
theorem explore_eq_foldUntil_moves (visit : β → List Nat → ForInStep β) (R : Residual m)
    (chosen : List Nat) (state : β × Nat) :
    R.explore visit chosen state = foldUntil (perform visit) (R.moves chosen) state := by
  induction R using choose_induction generalizing chosen state with
  | none R h =>
    rw [explore_of_none h, moves_of_none h]
    show withWork state.2 (visit state.1 chosen) = _
    cases hvisit : visit state.1 chosen with
    | yield b =>
      rw [foldUntil_cons_yield (perform_visit_of_yield hvisit)]
      rfl
    | done b =>
      rw [foldUntil_cons_done (perform_visit_of_done hvisit)]
      rfl
  | some R j h ih =>
    rw [explore_of_some h, moves_of_some h]
    show _ = foldUntil (perform visit) _ (state.1, state.2 + ((R.candidates j).map (excess m)).sum)
    rw [foldUntil_flatten]
    exact foldUntil_congr (fun r hr state => ih r hr (chosen ++ [r]) _) _

/-! ## Counting up to the cap -/

/-- Without a cap all moves are made. -/
theorem value_perform_unlimited (moves : List (Move m)) (state : Array (List Nat) × Nat) :
    (foldUntil (perform Cap.unlimited.collect) moves state).value.2 = state.2 + hidden moves := by
  induction moves generalizing state with
  | nil => rfl
  | cons move moves ih =>
    have hperform : ∃ found, perform Cap.unlimited.collect state move =
        .yield (found, state.2 + move.hides) := by
      cases move <;> exact ⟨_, rfl⟩
    obtain ⟨found, hperform⟩ := hperform
    rw [foldUntil_cons_yield hperform, ih, hidden_cons, Nat.add_assoc]

/-- With a cap, moves are made until enough exact covers have been shown. -/
theorem value_perform_atMost {count : Nat} (hcount : 0 < count) (moves : List (Move m))
    (found : Array (List Nat)) (u : Nat) (hfound : found.size < count) :
    (foldUntil (perform (Cap.atMost count hcount).collect) moves (found, u)).value.2 =
      u + hidden (upToVisit (count - found.size) moves) := by
  induction moves generalizing found u with
  | nil => rfl
  | cons move moves ih =>
    rw [upToVisit_cons (Nat.sub_pos_of_lt hfound), hidden_cons]
    have hother : move.visits = 0 →
        (foldUntil (perform (Cap.atMost count hcount).collect) (move :: moves) (found, u)).value.2 =
          u + (move.hides + hidden (upToVisit (count - found.size - move.visits) moves)) := by
      intro hmove
      rw [foldUntil_cons_yield (perform_of_visits_eq_zero hmove), ih _ _ hfound, hmove,
        Nat.sub_zero, Nat.add_assoc]
    cases move with
    | branch R j => exact hother rfl
    | attempt R j r => exact hother rfl
    | visit rows =>
      have hcollect := collect_atMost hcount found rows
      by_cases hmet : count ≤ found.size + 1
      · rw [if_pos hmet] at hcollect
        have hleft : count - found.size - (Move.visit (m := m) rows).visits = 0 := by
          simp only [Move.visits]
          omega
        rw [foldUntil_cons_done (perform_visit_of_done hcollect), hleft, upToVisit_zero]
        rfl
      · rw [if_neg hmet] at hcollect
        have hleft : count - (found.push rows).size =
            count - found.size - (Move.visit (m := m) rows).visits := by
          rw [Array.size_push]
          simp only [Move.visits]
          omega
        rw [foldUntil_cons_yield (perform_visit_of_yield hcollect),
          ih _ _ (by rw [Array.size_push]; omega), hleft]
        exact congrArg (u + ·) (Nat.zero_add _).symm

end Residual

/-! ## What is reported -/

section

variable {α : Type} [Entry α] {rows : List (List α)} {m : BitMatrix}

/-- Without a cap, what all moves hide is counted. -/
theorem updates_unlimited (hm : ofRows rows = .ok m) :
    ∃ report, solve rows .unlimited = .ok report ∧
      report.updates = Residual.hidden ((Residual.whole m).moves []) := by
  obtain ⟨report, hreport, -, hupdates, -⟩ := solve_eq_explore hm .unlimited
  refine ⟨report, hreport, ?_⟩
  rw [hupdates, Residual.explore_eq_foldUntil_moves, Residual.value_perform_unlimited, Nat.zero_add]

/-- With a cap, what is hidden until it is met is counted. -/
theorem updates_ofNat (hm : ofRows rows = .ok m) {count : Nat} (hcount : 0 < count) :
    ∃ report, solve rows (.ofNat count) = .ok report ∧
      report.updates =
        Residual.hidden (Residual.upToVisit count ((Residual.whole m).moves [])) := by
  obtain ⟨report, hreport, -, hupdates, -⟩ := solve_eq_explore hm (.atMost count hcount)
  refine ⟨report, by rw [Cap.ofNat_of_pos hcount, hreport], ?_⟩
  rw [hupdates, Residual.explore_eq_foldUntil_moves,
    Residual.value_perform_atMost hcount _ _ _ (by simpa using hcount), Nat.zero_add]
  rfl

end

/-- **The updates measure the tree of the recursion.** For rows of one width, what is
    reported without a cap is a sum over all problems at which the recursion branches:
    of the 1s of the candidates, each less one, and then for each candidate of the 1s,
    each row less one, of the further rows that it meets. With a cap only those problems
    count, and of their candidates those, that are reached before the cap is met; so a
    greater cap never reports fewer updates, and none more than there are without a cap.
    To uncover a column, the columns of a row, or all that is chosen counts nothing. -/
theorem updates_measure :
    (∀ {α : Type} [Entry α] {rows : List (List α)} {width : Nat}, rows ≠ [] →
      (∀ row ∈ rows, row.length = width) →
      ∃ (m : BitMatrix) (full : Report),
        ofRows rows = .ok m ∧ m.height = rows.length ∧ m.width = width ∧
        (∀ r (j : Fin m.width), m.entry r j = isOneAt rows r j) ∧
        solve rows .unlimited = .ok full ∧
        full.updates = ((Residual.whole m).branchings.map fun (R, j) => R.toll j).sum ∧
        full.updates = Residual.hidden ((Residual.whole m).moves []) ∧
        ∀ count, 0 < count → ∃ report,
          solve rows (.ofNat count) = .ok report ∧
          report.updates =
            Residual.hidden (Residual.upToVisit count ((Residual.whole m).moves [])) ∧
          report.updates ≤ full.updates ∧
          ∀ count' report', count ≤ count' → solve rows (.ofNat count') = .ok report' →
            report.updates ≤ report'.updates) ∧
    (∀ {c k : Nat} (s t : Search c k),
      (∀ h, s.uncover h = .ok t → t.updates = s.updates) ∧
      (∀ p, s.uncoverRow p = .ok t → t.updates = s.updates) ∧
      (s.uncoverTrail = .ok t → t.updates = s.updates)) := by
  constructor
  · intro α _ rows width hne hwidth
    obtain ⟨m, hm, hheight, hmwidth, hentry⟩ := exists_ofRows hne hwidth
    obtain ⟨full, hfull, hmoves⟩ := updates_unlimited hm
    refine ⟨m, full, hm, hheight, hmwidth, hentry, hfull, ?_, hmoves, fun count hcount => ?_⟩
    · rw [hmoves, Residual.hidden_moves, Residual.work_eq_sum_branchings]
    · obtain ⟨report, hreport, hupdates⟩ := updates_ofNat hm hcount
      refine ⟨report, hreport, hupdates, ?_, fun count' report' hle hreport' => ?_⟩
      · rw [hupdates, hmoves]
        exact Residual.hidden_le_of_isPrefix (Residual.upToVisit_isPrefix _ _)
      · obtain ⟨report'', hreport'', hupdates'⟩ := updates_ofNat hm (hcount.trans_le hle)
        obtain rfl : report'' = report' := Except.ok.inj (hreport''.symm.trans hreport')
        rw [hupdates, hupdates']
        exact Residual.hidden_le_of_isPrefix (Residual.upToVisit_isPrefix_of_le hle _)
  · intro c k s t
    exact ⟨fun h => Search.uncover_keeps fun _ _ => rfl,
      fun p => Search.uncoverRow_keeps fun _ _ => rfl,
      Search.updates_of_uncoverTrail⟩

/-- The pairs, with caps that are met by their first exact cover and by a later one, and
    the sample with one column covered, which is uncovered. -/
theorem updates_measure_pairs :
    (∃ (m : BitMatrix) (full report report' : Report), ofRows pairs = .ok m ∧
      solve pairs .unlimited = .ok full ∧ solve pairs (.ofNat 1) = .ok report ∧
      solve pairs (.ofNat 2) = .ok report' ∧
      full.updates = Residual.hidden ((Residual.whole m).moves []) ∧
      report.updates ≤ report'.updates ∧ report'.updates ≤ full.updates) ∧
    ∃ s t, Search.Nested Search.sample [3] s ∧ s.uncover (headerOf 3) = .ok t ∧
      t.updates = s.updates := by
  constructor
  · have hne : pairs ≠ [] := by decide
    have hwidth : ∀ row ∈ pairs, row.length = 2 := by decide
    obtain ⟨m, full, hm, -, -, -, hfull, -, hmoves, hcap⟩ := updates_measure.1 hne hwidth
    obtain ⟨report, hreport, -, -, hmono⟩ := hcap 1 Nat.one_pos
    obtain ⟨report', hreport', -, hle, -⟩ := hcap 2 Nat.two_pos
    exact ⟨m, full, report, report', hm, hfull, hreport, hreport', hmoves,
      hmono 2 report' (Nat.le_succ 1) hreport', hle⟩
  · have hnodup : ([3] : List (Fin Search.sample.width)).Nodup := by decide
    obtain ⟨u, h⟩ := Search.exists_nested hnodup
    have huncover := Search.uncover_after (t := []) (u := u) hnodup
    exact ⟨_, _, h, huncover, (updates_measure.2 _ _).1 _ huncover⟩

end ExactCover
