import ExactCover.Proofs.Simulation

/-!
# The trails of a search

Between two steps the state of a search is told by its trail. A trail holds 1s that lie,
each of them, in the column that is branched on after the rows before it are chosen; a
step adds a 1, takes one away, replaces the last one by a later 1 of its column, or
leaves the trail as it is.

Results:
* `runFor_eq_ok_iff`: the steps of a search without a bound on their number.
* `IsTrail.nodup`, `IsTrail.apart`: what is covered along a trail, and which rows are
  chosen.
* `step_onTrail`: what a step does to a trail; no step fails.
* `Nested.atTrailEnd_of_passes`: all states of a search stand at the end of a trail.
-/

namespace ExactCover

open BitMatrix

variable {m : BitMatrix} {js : List (Fin m.width)} {is is' : List m.One} {i i' : m.One}

/-! ## Trails -/

/-- The 1s of `is`, the last one first, are a trail when the columns `js` were covered
    before: each lies in the list of the column that is branched on once the rows before
    it are chosen. -/
inductive BitMatrix.IsTrail (m : BitMatrix) (js : List (Fin m.width)) : List m.One → Prop
  | nil : IsTrail m js []
  | cons {i : m.One} {is : List m.One} : IsTrail m js is →
      (m.remaining js is).shortest? = some (m.columnOf i) →
      i ∈ m.standing (m.hiddenAfter (m.coveredBy js is)) (m.columnOf i) → IsTrail m js (i :: is)

/-- The positions of the rows that are chosen along a trail, the first one first. -/
def BitMatrix.trailRows (m : BitMatrix) (is : List m.One) : List Nat :=
  is.reverse.map m.rowOf

@[simp] theorem trailRows_nil : m.trailRows [] = [] := rfl

@[simp] theorem trailRows_cons (i : m.One) (is : List m.One) :
    m.trailRows (i :: is) = m.trailRows is ++ [m.rowOf i] := by
  simp [trailRows]

/-- Each of the rows has a 1, and no two of them have one in the same column. -/
structure BitMatrix.Apart (m : BitMatrix) (rows : List Nat) : Prop where
  ones : ∀ r ∈ rows, ∃ j, m.entry r j = true
  apart : rows.Pairwise fun r r' => m.meets r r' = false

namespace BitMatrix.IsTrail

theorem nodup (hjs : js.Nodup) (h : m.IsTrail js is) : (m.coveredBy js is).Nodup := by
  induction h with
  | nil => exact hjs
  | cons _ hshortest hstanding ih =>
    exact nodup_choose_of_mem ih (Residual.notMem_of_shortest? hshortest) hstanding

/-- The columns of the chosen rows are covered. -/
theorem mem_coveredBy {j : Fin m.width} (hi : i ∈ is) (hj : m.entry (m.rowOf i) j = true) :
    j ∈ m.coveredBy js is := by
  have hmem : j ∈ is.reverse.flatMap m.choiceColumns :=
    List.mem_flatMap.2 ⟨i, List.mem_reverse.2 hi, mem_choiceColumns.2 hj⟩
  rw [coveredBy_eq]
  exact List.mem_append_left js (List.mem_reverse.2 hmem)

/-- A row that is chosen avoids the columns of those chosen before it. -/
theorem apart (hjs : js.Nodup) (h : m.IsTrail js is) : m.Apart (m.trailRows is) := by
  induction h with
  | nil => exact ⟨by simp, List.Pairwise.nil⟩
  | @cons i is htrail hshortest hstanding ih =>
    have havoids : m.avoids (m.coveredBy js is) (m.rowOf i) = true :=
      (notMem_hiddenAfter (htrail.nodup hjs) (Residual.notMem_of_shortest? hshortest)).1
        (mem_standing.1 hstanding).2
    rw [trailRows_cons]
    refine ⟨fun r hr => ?_, List.pairwise_append.2 ⟨ih.apart, List.pairwise_singleton _ _, ?_⟩⟩
    · rcases List.mem_append.1 hr with hr | hr
      · exact ih.ones r hr
      · exact ⟨m.columnOf i, List.mem_singleton.1 hr ▸ entry_of_one i⟩
    · intro r hr r' hr'
      obtain rfl := List.mem_singleton.1 hr'
      obtain ⟨i', hi', rfl⟩ := List.mem_map.1 hr
      unfold meets
      rw [List.any_eq_false]
      intro j _ hmeets
      obtain ⟨hentry, hentry'⟩ := Bool.and_eq_true_iff.1 hmeets
      rw [avoids_iff.1 havoids j (mem_coveredBy (List.mem_reverse.1 hi') hentry)] at hentry'
      cases hentry'

/-- What comes first on a trail is a trail. -/
theorem of_append {later : List m.One} (h : m.IsTrail js (later ++ is)) : m.IsTrail js is := by
  induction later with
  | nil => exact h
  | cons i later ih =>
    cases h with
    | cons h _ _ => exact ih h

end BitMatrix.IsTrail

namespace Search

variable {β : Type} {visit : β → List Nat → ForInStep β} {b : β} {u : Nat} {phase : Phase}

/-! ## The states that a search passes through -/

section

variable {c k : Nat} {s : Search c k} {outcome : Outcome c k β}

/-- The search comes from the state `s` to its end, one step after another, and these
    are the states between the steps, each with what the search does next. -/
inductive Passes (visit : β → List Nat → ForInStep β) :
    Phase → Search c k → β → List (Phase × Search c k) → Outcome c k β → Prop
  | ended {phase : Phase} {s : Search c k} {b : β} {outcome : Outcome c k β} :
      s.step visit phase b = .ok (.ended outcome) → Passes visit phase s b [] outcome
  | going {phase phase' : Phase} {s t : Search c k} {b b' : β} {later : List (Phase × Search c k)}
      {outcome : Outcome c k β} : s.step visit phase b = .ok (.going phase' t b') →
      Passes visit phase' t b' later outcome → Passes visit phase s b ((phase', t) :: later) outcome

/-- A search with a bound on the number of its steps is one without a bound that takes
    no more steps. -/
theorem runFor_eq_ok_iff {fuel : Nat} :
    s.runFor visit fuel phase b = .ok outcome ↔
      ∃ later, s.Passes visit phase b later outcome ∧ later.length < fuel := by
  induction fuel generalizing phase s b with
  | zero => simp [runFor]
  | succ fuel ih =>
    rw [runFor]
    constructor
    · intro h
      cases hstep : s.step visit phase b with
      | error fault => rw [hstep] at h; cases h
      | ok progress =>
        rw [hstep] at h
        cases progress with
        | going phase' t b' =>
          obtain ⟨later, hlater, hlength⟩ := ih.1 h
          exact ⟨_, .going hstep hlater, by simpa using hlength⟩
        | ended outcome' =>
          cases h
          exact ⟨[], .ended hstep, fuel.succ_pos⟩
    · rintro ⟨later, hlater, hlength⟩
      cases hlater with
      | ended hstep => rw [hstep]; rfl
      | going hstep hlater =>
        rw [hstep]
        exact ih.2 ⟨_, hlater, by simpa using hlength⟩

/-- What every step keeps holds of all states that a search passes through. -/
theorem Passes.invariant (Inv : Search c k → Prop)
    (hstep : ∀ {phase phase' : Phase} {s t : Search c k} {b b' : β}, Inv s →
      s.step visit phase b = .ok (.going phase' t b') → Inv t)
    {later : List (Phase × Search c k)} (h : s.Passes visit phase b later outcome) (hs : Inv s) :
    ∀ seen ∈ (phase, s) :: later, Inv seen.2 := by
  induction h with
  | ended _ => simpa using hs
  | going hgoing _ ih => exact List.forall_mem_cons.2 ⟨hs, ih (hstep hs hgoing)⟩

end

/-! ## What a step does to a trail -/

/-- What a step may do to a trail: it chooses the first row of a column, leaves the
    trail to reconsider its last choice, replaces this choice by the next row of its
    column, or takes it back. -/
inductive Moves (m : BitMatrix) (js : List (Fin m.width)) :
    Phase → List m.One → Phase → List m.One → Prop
  | choose {i : m.One} {is rest : List m.One} :
      (m.remaining js is).shortest? = some (m.columnOf i) →
      m.standing (m.hiddenAfter (m.coveredBy js is)) (m.columnOf i) = i :: rest →
      Moves m js .descend is .descend (i :: is)
  | leave {is : List m.One} : Moves m js .descend is .backtrack is
  | replace {i i' : m.One} {is xs ys : List m.One} :
      m.standing (m.hiddenAfter (m.coveredBy js is)) (m.columnOf i) = xs ++ i :: i' :: ys →
      Moves m js .backtrack (i :: is) .descend (i' :: is)
  | takeBack {i : m.One} {is : List m.One} : Moves m js .backtrack (i :: is) .backtrack is

theorem Moves.isTrail {phase' : Phase} (hmoves : Moves m js phase is phase' is')
    (h : m.IsTrail js is) : m.IsTrail js is' := by
  cases hmoves with
  | choose hshortest hstanding => exact .cons h hshortest (by simp [hstanding])
  | leave => exact h
  | @replace i i' is xs ys hstanding =>
    cases h with
    | cons h hshortest _ =>
      have hi' : i' ∈ m.standing (m.hiddenAfter (m.coveredBy js is)) (m.columnOf i) := by
        simp [hstanding]
      have hcolumn : m.columnOf i' = m.columnOf i := (mem_standing.1 hi').1
      exact .cons h (hcolumn ▸ hshortest) (hcolumn ▸ hi')
  | takeBack =>
    cases h with
    | cons h _ _ => exact h

theorem descend_onTrail (hjs : js.Nodup) (h : m.IsTrail js is) (visit : β → List Nat → ForInStep β)
    (u : Nat) (b : β) :
    (∃ outcome, (onTrail m js is u).descend visit b = .ok (.ended outcome)) ∨
    ∃ phase' is' u' b', Moves m js .descend is phase' is' ∧
      (onTrail m js is u).descend visit b = .ok (.going phase' (onTrail m js is' u') b') := by
  have hnodup := h.nodup hjs
  cases hshortest : (m.remaining js is).shortest? with
  | none =>
    have hstep := @descend_of_none m js is u β visit b hnodup hshortest
    cases hvisit : visit b (is.reverse.map m.rowOf) with
    | yield b' =>
      rw [hvisit] at hstep
      exact .inr ⟨_, _, _, _, .leave, hstep⟩
    | done b' =>
      rw [hvisit] at hstep
      exact .inl ⟨_, hstep⟩
  | some j =>
    cases hstanding : m.standing (m.hiddenAfter (m.coveredBy js is)) j with
    | nil => exact .inr ⟨_, _, _, _, .leave, descend_of_nil hnodup hshortest hstanding⟩
    | cons i rest =>
      have hi : i ∈ m.standing (m.hiddenAfter (m.coveredBy js is)) j := by simp [hstanding]
      obtain ⟨rfl, -⟩ := mem_standing.1 hi
      exact .inr ⟨_, _, _, _, .choose hshortest hstanding,
        descend_of_cons hnodup hshortest hstanding⟩

theorem backtrack_onTrail (hjs : js.Nodup) (h : m.IsTrail js is) (u : Nat) (b : β) :
    (∃ outcome, (onTrail m js is u).backtrack b = .ok (.ended outcome)) ∨
    ∃ phase' is' u' b', Moves m js .backtrack is phase' is' ∧
      (onTrail m js is u).backtrack b = .ok (.going phase' (onTrail m js is' u') b') := by
  have hnodup := h.nodup hjs
  cases h with
  | nil => exact .inl ⟨_, backtrack_nil⟩
  | @cons i is h hshortest hi =>
    obtain ⟨xs, ys, hstanding⟩ := List.append_of_mem hi
    cases ys with
    | nil => exact .inr ⟨_, _, _, _, .takeBack, backtrack_of_last hnodup hstanding⟩
    | cons i' ys => exact .inr ⟨_, _, _, _, .replace hstanding, backtrack_of_next hnodup hstanding⟩

/-- No step along a trail fails: it ends the search, or leads along a trail again. -/
theorem step_onTrail (hjs : js.Nodup) (h : m.IsTrail js is) (visit : β → List Nat → ForInStep β)
    (phase : Phase) (u : Nat) (b : β) :
    (∃ outcome, (onTrail m js is u).step visit phase b = .ok (.ended outcome)) ∨
    ∃ phase' is' u' b', Moves m js phase is phase' is' ∧
      (onTrail m js is u).step visit phase b = .ok (.going phase' (onTrail m js is' u') b') := by
  cases phase with
  | descend => exact descend_onTrail hjs h visit u b
  | backtrack => exact backtrack_onTrail hjs h u b

/-- Some rows are chosen along a trail, and nothing else was covered since the columns
    `js` were. -/
def AtTrailEnd (js : List (Fin m.width)) (s : Search m.width m.ones.length) : Prop :=
  ∃ is u, s = onTrail m js is u ∧ m.IsTrail js is

theorem AtTrailEnd.step {phase' : Phase} {s t : Search m.width m.ones.length} {b' : β}
    (hjs : js.Nodup) (h : AtTrailEnd js s)
    (hstep : s.step visit phase b = .ok (.going phase' t b')) : AtTrailEnd js t := by
  obtain ⟨is, u, rfl, htrail⟩ := h
  rcases step_onTrail hjs htrail visit phase u b with ⟨_, hended⟩ | ⟨_, is', u', _, hmoves, hgoing⟩
  · rw [hended] at hstep
    cases hstep
  · rw [hgoing] at hstep
    cases hstep
    exact ⟨is', u', rfl, hmoves.isTrail htrail⟩

/-- Whatever was covered and uncovered on the way, between two steps a search stands at
    the end of a trail. -/
theorem Nested.atTrailEnd_of_passes {s : Search m.width m.ones.length} (h : Nested m js s)
    {later : List (Phase × Search m.width m.ones.length)}
    {outcome : Outcome m.width m.ones.length β}
    (hpasses : s.Passes visit .descend b later outcome) :
    ∀ seen ∈ (.descend, s) :: later, AtTrailEnd js seen.2 := by
  obtain ⟨hjs, hs⟩ := h.eq_after
  exact hpasses.invariant (AtTrailEnd js) (fun h hstep => h.step hjs hstep)
    ⟨[], s.updates, hs, .nil⟩

end Search

end ExactCover
