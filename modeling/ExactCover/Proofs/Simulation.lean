import ExactCover.Proofs.Exploration
import ExactCover.Proofs.Choice

/-!
# The search follows the recursion

Between two steps the trail determines all links: the columns of the chosen rows are
covered, in the order in which the rows were chosen, on top of what was covered at the
start. A descent at a trail explores what is left at it, and then backtracks from the
same trail with everything as it was; so the trail and the frozen list of the column of
each choice stand for the calls of the recursion that are still open.

Results:
* `uncoverTrail_onTrail`: all choices can be taken back at once.
* `descend_of_none`, `descend_of_nil`, `descend_of_cons`, `backtrack_of_last`,
  `backtrack_of_next`: what a step does.
* `explores`: what the steps from a descent lead to.
* `run_after`, `run_of_nested`: a whole search with any columns covered.
-/

namespace ExactCover

open BitMatrix

variable {m : BitMatrix} {js : List (Fin m.width)} {is : List m.One} {i : m.One}
  {j : Fin m.width}

/-- The columns that are covered when `js` are and then the rows of `is` are chosen, the
    last one of each list first. -/
def BitMatrix.coveredBy (m : BitMatrix) (js : List (Fin m.width)) : List m.One → List (Fin m.width)
  | [] => js
  | i :: is => (m.choiceColumns i).reverse ++ coveredBy m js is

/-- What is left of the matrix then. -/
abbrev BitMatrix.remaining (m : BitMatrix) (js : List (Fin m.width)) (is : List m.One) :
    Residual m :=
  .ofCovered m (m.coveredBy js is)

theorem reverse_choiceColumns_append (i : m.One) (js : List (Fin m.width)) :
    (m.choiceColumns i).reverse ++ js =
      ((m.restOfRow i).map m.columnOf).reverse ++ m.columnOf i :: js := by
  simp [choiceColumns]

theorem remaining_cons (i : m.One) (is : List m.One) :
    m.remaining js (i :: is) = (m.remaining js is).choose (m.rowOf i) :=
  (Residual.choose_ofCovered i _).symm

/-- The columns of the chosen rows are covered one row after another, each in cyclic
    order from its choice on. -/
theorem coveredBy_eq (js : List (Fin m.width)) (is : List m.One) :
    m.coveredBy js is = (is.reverse.flatMap m.choiceColumns).reverse ++ js := by
  induction is with
  | nil => rfl
  | cons i is ih => simp [coveredBy, ih, List.flatMap_append]

theorem coveredBy_append (later is : List m.One) :
    m.coveredBy js (later ++ is) = m.coveredBy (m.coveredBy js is) later := by
  induction later with
  | nil => rfl
  | cons i later ih => rw [List.cons_append, coveredBy, coveredBy, ih]

/-- A row that avoids all covered columns has its 1s in columns that are not covered. -/
theorem nodup_choose (hnodup : js.Nodup) (havoids : m.avoids js (m.rowOf i) = true) :
    ((m.choiceColumns i).reverse ++ js).Nodup := by
  refine (List.nodup_reverse.2 (nodup_choiceColumns i)).append hnodup fun j hj hj' => ?_
  have hentry := mem_choiceColumns.1 (List.mem_reverse.1 hj)
  rw [avoids_iff.1 havoids j hj'] at hentry
  cases hentry

/-- The 1s in the list of a column that is not covered lie in rows that can be
    chosen. -/
theorem nodup_choose_of_mem (hnodup : js.Nodup) (hj : j ∉ js)
    (hi : i ∈ m.standing (m.hiddenAfter js) j) : ((m.choiceColumns i).reverse ++ js).Nodup := by
  obtain ⟨rfl, hhidden⟩ := mem_standing.1 hi
  exact nodup_choose hnodup ((notMem_hiddenAfter hnodup hj).1 hhidden)

/-- The column of a choice is covered before the other columns of its row. -/
theorem nodup_column_cons (hnodup : (m.coveredBy js (i :: is)).Nodup) :
    (m.columnOf i :: m.coveredBy js is).Nodup := by
  rw [coveredBy, reverse_choiceColumns_append] at hnodup
  exact (List.nodup_append.1 hnodup).2.1

/-- The list of a column stays as it is when the column is covered. -/
theorem standing_hiddenBy_append (gone : List m.One) (j : Fin m.width) :
    m.standing (m.hiddenBy gone j ++ gone) j = m.standing gone j :=
  standing_flatMap_restOfRow fun _ hi => (mem_standing.1 hi).1

namespace Search

variable {u fuel : Nat} {β : Type} {visit : β → List Nat → ForInStep β} {b : β}

/-- The search that has chosen the rows of `is`, the last one first, after the columns
    `js` were covered. -/
def onTrail (m : BitMatrix) (js : List (Fin m.width)) (is : List m.One) (updates : Nat) :
    Search m.width m.ones.length :=
  after m (m.coveredBy js is) (is.map m.node) updates

/-! ## Taking choices back -/

theorem chosenRows_onTrail (hnodup : (m.coveredBy js is).Nodup) :
    (onTrail m js is u).chosenRows = is.reverse.map m.rowOf := by
  show (is.map m.node).reverse.map (LinkedMatrix.ofCovered m (m.coveredBy js is)).row = _
  rw [← List.map_reverse, List.map_map]
  exact List.map_congr_left fun i _ => (LinkedMatrix.lacks_ofCovered hnodup).row_node i

/-- All choices can be taken back at once, the last one first. -/
theorem uncoverTrail_onTrail (hnodup : (m.coveredBy js is).Nodup) :
    (onTrail m js is u).uncoverTrail = .ok (after m js [] u) := by
  unfold uncoverTrail
  show (is.map m.node).foldlM _ (after m (m.coveredBy js is) [] u) = _
  induction is with
  | nil => rfl
  | cons i is ih =>
    rw [coveredBy, reverse_choiceColumns_append] at hnodup ⊢
    have hnodup' : (m.columnOf i :: m.coveredBy js is).Nodup := (List.nodup_append.1 hnodup).2.1
    rw [List.map_cons, List.foldlM_cons, uncoverRow_after hnodup]
    show ((after m (m.columnOf i :: m.coveredBy js is) [] u).uncover
      ((LinkedMatrix.ofCovered m (m.columnOf i :: m.coveredBy js is)).column (m.node i)) >>= _) = _
    rw [(LinkedMatrix.lacks_ofCovered hnodup').column_node, uncover_after hnodup']
    exact ih (List.nodup_cons.1 hnodup').2

/-! ## Descending -/

theorem shortest?_onTrail (hnodup : (m.coveredBy js is).Nodup) :
    (onTrail m js is u).links.shortest? =
      .ok ((m.remaining js is).shortest?.map headerOf) :=
  LinkedMatrix.shortest?_ofCovered hnodup

/-- Where no column is left the visitor is shown the chosen rows. -/
theorem descend_of_none (hnodup : (m.coveredBy js is).Nodup)
    (h : (m.remaining js is).shortest? = none) :
    (onTrail m js is u).descend visit b =
      match visit b (is.reverse.map m.rowOf) with
      | .yield b => .ok (.going .backtrack (onTrail m js is u) b)
      | .done b => .ok (.ended ⟨after m js [] u, b, true⟩) := by
  unfold descend
  rw [shortest?_onTrail hnodup, h, chosenRows_onTrail hnodup, uncoverTrail_onTrail hnodup]
  show (match visit b (is.reverse.map m.rowOf) with
    | .yield b => _
    | .done b => _) = _
  cases visit b (is.reverse.map m.rowOf) <;> rfl

/-- Where the shortest column has no row left there is nothing to choose. -/
theorem descend_of_nil (hnodup : (m.coveredBy js is).Nodup)
    (h : (m.remaining js is).shortest? = some j)
    (hstanding : m.standing (m.hiddenAfter (m.coveredBy js is)) j = []) :
    (onTrail m js is u).descend visit b = .ok (.going .backtrack (onTrail m js is u) b) := by
  have hlacks := LinkedMatrix.lacks_ofCovered hnodup
  have hring := hlacks.vertical j
  rw [hstanding, ← hlacks.head] at hring
  have hdown : (onTrail m js is u).links.down ((onTrail m js is u).links.head (headerOf j)) =
      (onTrail m js is u).links.head (headerOf j) := hring.next_start
  unfold descend
  rw [shortest?_onTrail hnodup, h]
  show (if (onTrail m js is u).links.down ((onTrail m js is u).links.head (headerOf j)) =
      (onTrail m js is u).links.head (headerOf j) then _
    else _) = _
  rw [if_pos hdown]
  rfl

/-- Otherwise the first row of the shortest column is chosen. -/
theorem descend_of_cons {rest : List m.One} (hnodup : (m.coveredBy js is).Nodup)
    (h : (m.remaining js is).shortest? = some j)
    (hstanding : m.standing (m.hiddenAfter (m.coveredBy js is)) j = i :: rest) :
    (onTrail m js is u).descend visit b = .ok (.going .descend
      (onTrail m js (i :: is)
        (u + (((m.remaining js is).candidates j).map (Residual.excess m)).sum
          + (m.remaining js is).effort j (m.rowOf i))) b) := by
  have hj : j ∉ m.coveredBy js is := Residual.notMem_of_shortest? h
  have hi : i ∈ m.standing (m.hiddenAfter (m.coveredBy js is)) j := by
    rw [hstanding]
    exact List.mem_cons_self
  obtain ⟨rfl, -⟩ := mem_standing.1 hi
  have hcover : (m.columnOf i :: m.coveredBy js is).Nodup := List.nodup_cons.2 ⟨hj, hnodup⟩
  have hchoose := nodup_choose_of_mem hnodup hj hi
  have hlacks := LinkedMatrix.lacks_ofCovered hnodup
  have hring := hlacks.vertical (m.columnOf i)
  rw [hstanding] at hring
  have hhead : (onTrail m js is u).links.head (headerOf (m.columnOf i)) =
      sentinel (headerOf (m.columnOf i)) := hlacks.head _
  have hdown : (onTrail m js is u).links.down (sentinel (headerOf (m.columnOf i))) = m.node i :=
    hring.next_start
  have hsize : (onTrail m js is u).links.size (headerOf (m.columnOf i)) ≠ 0 := by
    have hlength := hlacks.size (m.columnOf i)
    rw [hstanding] at hlength
    exact hlength ▸ Nat.succ_ne_zero rest.length
  unfold descend
  rw [shortest?_onTrail hnodup, h]
  show (if (onTrail m js is u).links.down
        ((onTrail m js is u).links.head (headerOf (m.columnOf i))) =
      (onTrail m js is u).links.head (headerOf (m.columnOf i)) then _
    else if (onTrail m js is u).links.size (headerOf (m.columnOf i)) = 0 then _ else _) = _
  simp only [hhead, hdown]
  rw [if_neg (nodeOf_ne_sentinel _ _), if_neg hsize, onTrail, cover_after hcover]
  show ((after m (m.columnOf i :: m.coveredBy js is) (m.node i :: is.map m.node) _).coverRow
    (m.node i) >>= _) = _
  rw [coverRow_after (by rwa [← reverse_choiceColumns_append]), coverWork_restOfRow i hchoose,
    length_hiddenBy_candidates hcover, ← reverse_choiceColumns_append]
  rfl

/-! ## Backtracking -/

/-- The next row of the column of a choice is the one after it in the list of the
    column, which has not changed since the column was covered. -/
theorem down_of_covered {xs ys : List m.One} (hnodup : (m.columnOf i :: m.coveredBy js is).Nodup)
    (hstanding : m.standing (m.hiddenAfter (m.coveredBy js is)) (m.columnOf i) = xs ++ i :: ys) :
    (LinkedMatrix.ofCovered m (m.columnOf i :: m.coveredBy js is)).down (m.node i) =
      (ys.map m.node).headD (sentinel (headerOf (m.columnOf i))) := by
  have hring := (LinkedMatrix.lacks_ofCovered hnodup).vertical (m.columnOf i)
  rw [hiddenAfter, standing_hiddenBy_append, hstanding, List.map_append, List.map_cons] at hring
  exact hring.next_of_append

theorem backtrack_nil :
    (onTrail m js [] u).backtrack b = .ok (.ended ⟨after m js [] u, b, false⟩) := rfl

/-- The other columns of the row of the last choice are uncovered. Then the column of
    the choice is uncovered too, or the next of its rows is chosen. -/
theorem backtrack_cons {q : Node m.width m.ones.length} (hnodup : (m.coveredBy js (i :: is)).Nodup)
    (hq : (LinkedMatrix.ofCovered m (m.columnOf i :: m.coveredBy js is)).down (m.node i) = q) :
    (onTrail m js (i :: is) u).backtrack b =
      if q = sentinel (headerOf (m.columnOf i)) then .ok (.going .backtrack (onTrail m js is u) b)
      else do
        let s ← (after m (m.columnOf i :: m.coveredBy js is) (q :: is.map m.node) u).coverRow q
        return .going .descend s b := by
  subst hq
  rw [coveredBy, reverse_choiceColumns_append] at hnodup
  have hcover : (m.columnOf i :: m.coveredBy js is).Nodup := (List.nodup_append.1 hnodup).2.1
  have hlacks := LinkedMatrix.lacks_ofCovered hcover
  unfold onTrail backtrack
  rw [coveredBy, reverse_choiceColumns_append]
  show ((after m _ (is.map m.node) u).uncoverRow (m.node i) >>= _) = _
  rw [uncoverRow_after hnodup]
  show (if (LinkedMatrix.ofCovered m (m.columnOf i :: m.coveredBy js is)).down (m.node i) =
      (LinkedMatrix.ofCovered m (m.columnOf i :: m.coveredBy js is)).head
        ((LinkedMatrix.ofCovered m (m.columnOf i :: m.coveredBy js is)).column (m.node i))
    then (after m (m.columnOf i :: m.coveredBy js is) (is.map m.node) u).uncover
      ((LinkedMatrix.ofCovered m (m.columnOf i :: m.coveredBy js is)).column (m.node i)) >>= _
    else _) = _
  rw [hlacks.column_node, hlacks.head, uncover_after hcover]
  rfl

/-- The last choice is taken back if it was the last row of its column. -/
theorem backtrack_of_last {xs : List m.One} (hnodup : (m.coveredBy js (i :: is)).Nodup)
    (hstanding : m.standing (m.hiddenAfter (m.coveredBy js is)) (m.columnOf i) = xs ++ [i]) :
    (onTrail m js (i :: is) u).backtrack b = .ok (.going .backtrack (onTrail m js is u) b) := by
  rw [backtrack_cons hnodup (down_of_covered (nodup_column_cons hnodup) hstanding), List.map_nil,
    List.headD_nil, if_pos rfl]

/-- Otherwise the last choice is replaced by the next row of its column. -/
theorem backtrack_of_next {i' : m.One} {xs ys : List m.One}
    (hnodup : (m.coveredBy js (i :: is)).Nodup)
    (hstanding : m.standing (m.hiddenAfter (m.coveredBy js is)) (m.columnOf i) =
      xs ++ i :: i' :: ys) :
    (onTrail m js (i :: is) u).backtrack b = .ok (.going .descend
      (onTrail m js (i' :: is)
        (u + (m.remaining js is).effort (m.columnOf i) (m.rowOf i'))) b) := by
  have hcover := nodup_column_cons hnodup
  obtain ⟨hj, hnodup'⟩ := List.nodup_cons.1 hcover
  have hi' : i' ∈ m.standing (m.hiddenAfter (m.coveredBy js is)) (m.columnOf i) := by
    simp [hstanding]
  have hcolumn : m.columnOf i' = m.columnOf i := (mem_standing.1 hi').1
  have hchoose := nodup_choose_of_mem hnodup' hj hi'
  rw [backtrack_cons hnodup (down_of_covered hcover hstanding), List.map_cons, List.headD_cons,
    if_neg (nodeOf_ne_sentinel _ _), ← hcolumn,
    coverRow_after (by rwa [← reverse_choiceColumns_append]), coverWork_restOfRow i' hchoose,
    ← reverse_choiceColumns_append]
  rfl

/-! ## Runs -/

theorem runFor_of_going {phase phase' : Phase} {s s' : Search m.width m.ones.length} {b' : β}
    (h : s.step visit phase b = .ok (.going phase' s' b')) :
    runFor visit (fuel + 1) phase s b = runFor visit fuel phase' s' b' := by
  rw [runFor, h]
  rfl

theorem runFor_of_ended {phase : Phase} {s : Search m.width m.ones.length}
    {outcome : Outcome m.width m.ones.length β} (h : s.step visit phase b = .ok (.ended outcome)) :
    runFor visit (fuel + 1) phase s b = .ok outcome := by
  rw [runFor, h]
  rfl

/-- How a run goes on when what is left at a trail has been explored: it backtracks from
    the trail, or it has ended with all choices taken back. -/
def conclude (visit : β → List Nat → ForInStep β) (m : BitMatrix) (js : List (Fin m.width))
    (is : List m.One) (fuel : Nat) :
    ForInStep (β × Nat) → Except Fault (Outcome m.width m.ones.length β)
  | .yield (b, u) => runFor visit fuel .backtrack (onTrail m js is u) b
  | .done (b, u) => .ok ⟨after m js [] u, b, true⟩

/-- A descent explores what is left at the trail, and then backtracks from where it
    began. -/
def Explores (visit : β → List Nat → ForInStep β) (m : BitMatrix) (js : List (Fin m.width))
    (is : List m.One) : Prop :=
  ∀ fuel u b,
    runFor visit (2 * (m.remaining js is).treeSize + fuel) .descend (onTrail m js is u) b =
      conclude visit m js is (fuel + 1)
        ((m.remaining js is).explore visit (is.reverse.map m.rowOf) (b, u))

/-- The number of residual problems that are met when each of the rows is chosen. -/
def sizeOfEach (R : Residual m) (rows : List Nat) : Nat :=
  (rows.map fun r => (R.choose r).treeSize).sum

/-- If the search explores what one choice leaves and goes on with further ones when it
    backtracks from there, it explores what all these choices leave. -/
theorem runFor_choice {ys : List m.One} (hchild : Explores visit m js (i :: is))
    (hnext : ∀ u b,
      runFor visit (2 * sizeOfEach (m.remaining js is) (ys.map m.rowOf) + fuel + 1) .backtrack
        (onTrail m js (i :: is) u) b =
      conclude visit m js is fuel ((m.remaining js is).exploreEach visit (is.reverse.map m.rowOf) j
        (ys.map m.rowOf) (b, u)))
    (u : Nat) (b : β) :
    runFor visit (2 * sizeOfEach (m.remaining js is) ((i :: ys).map m.rowOf) + fuel) .descend
      (onTrail m js (i :: is) (u + (m.remaining js is).effort j (m.rowOf i))) b =
    conclude visit m js is fuel ((m.remaining js is).exploreEach visit (is.reverse.map m.rowOf) j
      ((i :: ys).map m.rowOf) (b, u)) := by
  have hrows : (i :: is).reverse.map m.rowOf = is.reverse.map m.rowOf ++ [m.rowOf i] := by simp
  unfold Explores at hchild
  rw [remaining_cons, hrows] at hchild
  unfold sizeOfEach Residual.exploreEach
  rw [List.map_cons, List.map_cons, List.sum_cons, Nat.mul_add, Nat.add_assoc, hchild]
  cases hexplore : ((m.remaining js is).choose (m.rowOf i)).explore visit
      (is.reverse.map m.rowOf ++ [m.rowOf i]) (b, u + (m.remaining js is).effort j (m.rowOf i)) with
  | yield state =>
    rw [foldUntil_cons_yield hexplore]
    exact hnext state.2 state.1
  | done state =>
    rw [foldUntil_cons_done hexplore]
    rfl

/-- To backtrack from a choice explores what the candidates after it leave. -/
theorem runFor_backtrack {xs ys : List m.One} (hnodup : (m.coveredBy js is).Nodup)
    (hj : j ∉ m.coveredBy js is)
    (hstanding : m.standing (m.hiddenAfter (m.coveredBy js is)) j = xs ++ i :: ys)
    (hchild : ∀ i ∈ m.standing (m.hiddenAfter (m.coveredBy js is)) j, Explores visit m js (i :: is))
    (fuel u : Nat) (b : β) :
    runFor visit (2 * sizeOfEach (m.remaining js is) (ys.map m.rowOf) + fuel + 1) .backtrack
      (onTrail m js (i :: is) u) b =
    conclude visit m js is fuel ((m.remaining js is).exploreEach visit (is.reverse.map m.rowOf) j
      (ys.map m.rowOf) (b, u)) := by
  induction ys generalizing xs i u b with
  | nil =>
    have hi : i ∈ m.standing (m.hiddenAfter (m.coveredBy js is)) j := by simp [hstanding]
    have hchoose := nodup_choose_of_mem hnodup hj hi
    rw [← (mem_standing.1 hi).1] at hstanding
    have hstep : step visit .backtrack (onTrail m js (i :: is) u) b = _ :=
      backtrack_of_last hchoose hstanding
    rw [runFor_of_going hstep, sizeOfEach, List.map_nil, List.map_nil, List.sum_nil, Nat.mul_zero,
      Nat.zero_add]
    rfl
  | cons i' ys ih =>
    have hi : i ∈ m.standing (m.hiddenAfter (m.coveredBy js is)) j := by simp [hstanding]
    have hi' : i' ∈ m.standing (m.hiddenAfter (m.coveredBy js is)) j := by simp [hstanding]
    have hchoose := nodup_choose_of_mem hnodup hj hi
    have hstanding' : m.standing (m.hiddenAfter (m.coveredBy js is)) j =
        (xs ++ [i]) ++ i' :: ys := by
      simp [hstanding]
    obtain ⟨rfl, -⟩ := mem_standing.1 hi
    have hstep : step visit .backtrack (onTrail m js (i :: is) u) b = _ :=
      backtrack_of_next hchoose hstanding
    rw [runFor_of_going hstep]
    exact runFor_choice (hchild i' hi') (ih hstanding') _ b

theorem explores_of_none (hnodup : (m.coveredBy js is).Nodup)
    (h : (m.remaining js is).shortest? = none) : Explores visit m js is := by
  intro fuel u b
  rw [Residual.treeSize_of_none h, Residual.explore_of_none h, Nat.mul_one, Nat.add_comm]
  have hstep : step visit .descend (onTrail m js is u) b = _ := descend_of_none hnodup h
  cases hvisit : visit b (is.reverse.map m.rowOf) with
  | yield b' =>
    rw [hvisit] at hstep
    exact runFor_of_going hstep
  | done b' =>
    rw [hvisit] at hstep
    exact runFor_of_ended hstep

theorem explores_of_some (hnodup : (m.coveredBy js is).Nodup)
    (h : (m.remaining js is).shortest? = some j)
    (hchild : ∀ i ∈ m.standing (m.hiddenAfter (m.coveredBy js is)) j,
      Explores visit m js (i :: is)) :
    Explores visit m js is := by
  intro fuel u b
  have hj : j ∉ m.coveredBy js is := Residual.notMem_of_shortest? h
  have hcandidates := Residual.candidates_ofCovered hnodup hj
  rw [Residual.treeSize_of_some h, Residual.explore_of_some h]
  cases hstanding : m.standing (m.hiddenAfter (m.coveredBy js is)) j with
  | nil =>
    have hstep : step visit .descend (onTrail m js is u) b = _ :=
      descend_of_nil hnodup h hstanding
    rw [hstanding] at hcandidates
    rw [hcandidates, List.map_nil, List.map_nil, List.map_nil, List.sum_nil, Nat.add_zero,
      Nat.add_comm]
    exact runFor_of_going hstep
  | cons i ys =>
    have hi : i ∈ m.standing (m.hiddenAfter (m.coveredBy js is)) j := by simp [hstanding]
    have hnext := runFor_backtrack hnodup hj (hstanding.trans (List.nil_append _).symm) hchild
      (fuel + 1)
    have hstep : step visit .descend (onTrail m js is u) b = _ :=
      descend_of_cons hnodup h hstanding
    rw [hcandidates, hstanding] at hstep ⊢
    have hfuel : ∀ size, 2 * (1 + size) + fuel = 2 * size + (fuel + 1) + 1 := by omega
    rw [hfuel, runFor_of_going hstep]
    exact runFor_choice (hchild i hi) hnext _ b

/-- Every descent explores what is left: the recursion is followed at every trail. -/
theorem explores (hnodup : (m.coveredBy js is).Nodup) : Explores visit m js is := by
  induction hR : m.remaining js is using Residual.choose_induction generalizing is with
  | none R h =>
    subst hR
    exact explores_of_none hnodup h
  | some R j h ih =>
    subst hR
    apply explores_of_some hnodup h
    intro i hi
    have hj : j ∉ m.coveredBy js is := Residual.notMem_of_shortest? h
    have hr : m.rowOf i ∈ (m.remaining js is).candidates j := by
      rw [Residual.candidates_ofCovered hnodup hj]
      exact List.mem_map_of_mem hi
    exact @ih (m.rowOf i) hr (i :: is) (nodup_choose_of_mem hnodup hj hi) (remaining_cons i is)

/-! ## Whole searches -/

/-- The bound on the number of steps suffices. -/
theorem treeSize_le_stepBound (m : BitMatrix) (js : List (Fin m.width)) :
    2 * (Residual.ofCovered m js).treeSize ≤ stepBound m.width m.ones.length := by
  have hcandidates : ∀ j, ((Residual.ofCovered m js).candidates j).length ≤ m.ones.length := by
    intro j
    have hsub : ((Residual.ofCovered m js).candidates j).Sublist
        ((m.onesInColumn j).map m.rowOf) := by
      rw [map_rowOf_onesInColumn]
      exact List.filter_sublist.filter _
    have hones : (m.onesInColumn j).length ≤ m.ones.length :=
      (List.length_filter_le _ _).trans_eq List.length_finRange
    exact hsub.length_le.trans ((List.length_map _).trans_le hones)
  have hcolumns : (Residual.ofCovered m js).columns.length ≤ m.width :=
    (List.length_filter_le _ _).trans_eq List.length_finRange
  have hsize := Residual.treeSize_le (Residual.ofCovered m js) hcandidates
  exact Nat.mul_le_mul_left 2
    (hsize.trans (Nat.pow_le_pow_right m.ones.length.succ_pos hcolumns))

/-- What a search that has ended leaves behind, said by the recursion. -/
def outcomeOf (m : BitMatrix) (js : List (Fin m.width)) :
    ForInStep (β × Nat) → Outcome m.width m.ones.length β
  | .yield (b, u) => ⟨after m js [] u, b, false⟩
  | .done (b, u) => ⟨after m js [] u, b, true⟩

/-- A search explores what is left of the matrix, and leaves the columns covered that
    were. -/
theorem run_after (hnodup : js.Nodup) (visit : β → List Nat → ForInStep β) (u : Nat) (b : β) :
    (after m js [] u).run visit b =
      .ok (outcomeOf m js ((Residual.ofCovered m js).explore visit [] (b, u))) := by
  obtain ⟨fuel, hfuel⟩ := Nat.exists_eq_add_of_le (treeSize_le_stepBound m js)
  have hexplores : Explores visit m js [] := explores hnodup
  unfold run
  rw [hfuel]
  refine (hexplores fuel u b).trans ?_
  show conclude visit m js [] (fuel + 1) ((Residual.ofCovered m js).explore visit [] (b, u)) = _
  cases (Residual.ofCovered m js).explore visit [] (b, u) with
  | yield state => exact runFor_of_ended backtrack_nil
  | done state => rfl

/-- From every properly nested state a search explores what is left of the matrix. -/
theorem run_of_nested {s : Search m.width m.ones.length} (h : Nested m js s)
    (visit : β → List Nat → ForInStep β) (b : β) :
    s.run visit b =
      .ok (outcomeOf m js ((Residual.ofCovered m js).explore visit [] (b, s.updates))) := by
  obtain ⟨hnodup, hs⟩ := h.eq_after
  rw [← run_after hnodup, ← hs]

end Search

end ExactCover
