import ExactCover.Proofs.Choice
import ExactCover.Proofs.Exploration

/-!
# Problems that are the same up to names

Two residual problems, of different matrices, are solved in the same way if the columns
of the one are those of the other under other names and in the same order, and if so are
the rows that have a 1. Rows without 1s play no part. The two explorations go on in
lockstep: they branch on corresponding columns, choose corresponding rows, hide as many
nodes, and show the same rows under their two names.

Results:
* `Embeds.choose`: corresponding choices leave problems that correspond again.
* `Embeds.shortest?_eq`, `Embeds.candidates_eq`, `Embeds.effort_eq`: what corresponds in
  one step.
* `Embeds.explore_eq`: what corresponds in a whole exploration.
-/

namespace ExactCover

/-- Whether a row has a 1. -/
def BitMatrix.hasOne (m : BitMatrix) (r : Nat) : Bool :=
  (List.finRange m.width).any (m.entry r ·)

namespace Residual

variable {m m' : BitMatrix} {embed : Fin m.width → Fin m'.width} {rename : Nat → Nat}
  {R : Residual m} {R' : Residual m'} {r : Nat} {j : Fin m.width}

/-- The columns of `R` are the columns of `R'` under other names, and the rows of `R`
    that have a 1 are the rows of `R'` that have one. -/
structure Embeds (embed : Fin m.width → Fin m'.width) (rename : Nat → Nat) (R : Residual m)
    (R' : Residual m') : Prop where
  injective : Function.Injective embed
  columns : R'.columns = R.columns.map embed
  rows : R'.rows.filter m'.hasOne = (R.rows.filter m.hasOne).map rename
  ones : ∀ r ∈ R.rows, m.hasOne r = true →
    (List.finRange m'.width).filter (m'.entry (rename r) ·) =
      ((List.finRange m.width).filter (m.entry r ·)).map embed

theorem hasOne_of_entry (h : m.entry r j = true) : m.hasOne r = true :=
  List.any_eq_true.2 ⟨j, List.mem_finRange j, h⟩

theorem hasOne_of_meets {r' : Nat} (h : m.meets r r' = true) : m.hasOne r' = true := by
  obtain ⟨j, -, hj⟩ := List.any_eq_true.1 h
  exact hasOne_of_entry (Bool.and_eq_true_iff.1 hj).2

/-- A filter that keeps no row without 1s does not notice that they are dropped. -/
theorem filter_hasOne {keep : Nat → Bool} (h : ∀ r, keep r = true → m.hasOne r = true)
    (rows : List Nat) : (rows.filter m.hasOne).filter keep = rows.filter keep := by
  rw [List.filter_filter]
  apply List.filter_congr
  intro r _
  cases hkeep : keep r with
  | true => simp [h r hkeep]
  | false => rfl

namespace Embeds

/-! ## Entries -/

theorem mem_ones (h : R.Embeds embed rename R') (hr : r ∈ R.rows) (hone : m.hasOne r = true)
    {j' : Fin m'.width} :
    m'.entry (rename r) j' = true ↔ ∃ j, m.entry r j = true ∧ embed j = j' := by
  have hmem : j' ∈ (List.finRange m'.width).filter (m'.entry (rename r) ·) ↔
      j' ∈ ((List.finRange m.width).filter (m.entry r ·)).map embed := by
    rw [h.ones r hr hone]
  simpa using hmem

theorem entry_eq (h : R.Embeds embed rename R') (hr : r ∈ R.rows) (hone : m.hasOne r = true)
    (j : Fin m.width) : m'.entry (rename r) (embed j) = m.entry r j := by
  rw [Bool.eq_iff_iff, h.mem_ones hr hone]
  constructor
  · rintro ⟨j', hentry, heq⟩
    exact h.injective heq ▸ hentry
  · intro hentry
    exact ⟨j, hentry, rfl⟩

theorem meets_eq (h : R.Embeds embed rename R') (hr : r ∈ R.rows) (hone : m.hasOne r = true)
    {r' : Nat} (hr' : r' ∈ R.rows) (hone' : m.hasOne r' = true) :
    m'.meets (rename r) (rename r') = m.meets r r' := by
  unfold BitMatrix.meets
  rw [Bool.eq_iff_iff, List.any_eq_true, List.any_eq_true]
  simp only [List.mem_finRange, true_and, Bool.and_eq_true]
  constructor
  · rintro ⟨j', hentry, hentry'⟩
    obtain ⟨j, hj, rfl⟩ := (h.mem_ones hr hone).1 hentry
    exact ⟨j, hj, by rwa [h.entry_eq hr' hone'] at hentry'⟩
  · rintro ⟨j, hj, hj'⟩
    exact ⟨embed j, by rwa [h.entry_eq hr hone], by rwa [h.entry_eq hr' hone']⟩

theorem excess_eq (h : R.Embeds embed rename R') (hr : r ∈ R.rows) (hone : m.hasOne r = true) :
    excess m' (rename r) = excess m r := by
  have hlength := congrArg List.length (h.ones r hr hone)
  rw [List.length_map] at hlength
  unfold excess
  rw [List.countP_eq_length_filter, List.countP_eq_length_filter, hlength]

/-! ## One step -/

/-- Rows that are selected for their 1s correspond if the conditions do. -/
theorem filter_eq (h : R.Embeds embed rename R') (keep keep' : Nat → Bool)
    (hkeep : ∀ r ∈ R.rows, m.hasOne r = true → keep' (rename r) = keep r) :
    (R'.rows.filter m'.hasOne).filter keep' =
      ((R.rows.filter m.hasOne).filter keep).map rename := by
  rw [h.rows, List.filter_map]
  congr 1
  apply List.filter_congr
  intro r hr
  obtain ⟨hr, hone⟩ := List.mem_filter.1 hr
  exact hkeep r hr hone

theorem candidates_eq (h : R.Embeds embed rename R') (j : Fin m.width) :
    R'.candidates (embed j) = (R.candidates j).map rename := by
  unfold candidates
  rw [← filter_hasOne (m := m') (fun r => hasOne_of_entry) R'.rows,
    ← filter_hasOne (m := m) (fun r => hasOne_of_entry) R.rows]
  exact h.filter_eq _ _ fun r hr hone => h.entry_eq hr hone j

theorem of_mem_candidates (hr : r ∈ R.candidates j) : r ∈ R.rows ∧ m.hasOne r = true := by
  obtain ⟨hrows, hentry⟩ := List.mem_filter.1 hr
  exact ⟨hrows, hasOne_of_entry hentry⟩

theorem shortest?_eq (h : R.Embeds embed rename R') : R'.shortest? = R.shortest?.map embed := by
  show leftmost? (fun j' => (R'.candidates j').length) R'.columns = _
  rw [h.columns, leftmost?_map]
  congr 1
  apply leftmost?_congr
  intro j _
  show (R'.candidates (embed j)).length = _
  rw [h.candidates_eq, List.length_map]

theorem sum_excess_eq (h : R.Embeds embed rename R') {rows : List Nat}
    (hrows : ∀ r ∈ rows, r ∈ R.rows ∧ m.hasOne r = true) :
    ((rows.map rename).map (excess m')).sum = (rows.map (excess m)).sum := by
  rw [List.map_map]
  congr 1
  exact List.map_congr_left fun r hr => h.excess_eq (hrows r hr).1 (hrows r hr).2

theorem effort_eq (h : R.Embeds embed rename R') (hr : r ∈ R.candidates j) :
    R'.effort (embed j) (rename r) = R.effort j r := by
  obtain ⟨hrows, hone⟩ := of_mem_candidates hr
  have hmeets : ∀ {m : BitMatrix} {r : Nat} {j : Fin m.width} (r' : Nat),
      (m.meets r r' && !m.entry r' j) = true → m.hasOne r' = true :=
    fun r' h => hasOne_of_meets (Bool.and_eq_true_iff.1 h).1
  unfold effort
  rw [← filter_hasOne (m := m') hmeets R'.rows, ← filter_hasOne (m := m) hmeets R.rows,
    h.filter_eq (fun r' => m.meets r r' && !m.entry r' j) _
      fun r' hr' hone' => by rw [h.meets_eq hrows hone hr' hone', h.entry_eq hr' hone']]
  apply h.sum_excess_eq
  intro r' hr'
  exact List.mem_filter.1 (List.mem_filter.1 hr').1

/-- Corresponding choices leave problems that correspond again. -/
theorem choose (h : R.Embeds embed rename R') (hr : r ∈ R.candidates j) :
    (R.choose r).Embeds embed rename (R'.choose (rename r)) := by
  obtain ⟨hrows, hone⟩ := of_mem_candidates hr
  refine ⟨h.injective, ?_, ?_, fun r' hr' => h.ones r' (List.mem_filter.1 hr').1⟩
  · show R'.columns.filter (!m'.entry (rename r) ·) = (R.columns.filter (!m.entry r ·)).map embed
    rw [h.columns, List.filter_map]
    congr 1
    apply List.filter_congr
    intro j _
    exact congrArg (!·) (h.entry_eq hrows hone j)
  · show (R'.rows.filter (!m'.meets (rename r) ·)).filter m'.hasOne =
      ((R.rows.filter (!m.meets r ·)).filter m.hasOne).map rename
    rw [List.filter_comm, List.filter_comm (p := m.hasOne)]
    exact h.filter_eq _ _ fun r' hr' hone' => congrArg (!·) (h.meets_eq hrows hone hr' hone')

/-! ## The whole exploration -/

/-- The explorations show corresponding rows and take the same work. -/
theorem explore_eq {β : Type} (h : R.Embeds embed rename R') (visit : β → List Nat → ForInStep β)
    (chosen : List Nat) (state : β × Nat) :
    R'.explore visit (chosen.map rename) state =
      R.explore (fun b rows => visit b (rows.map rename)) chosen state := by
  induction R using choose_induction generalizing R' chosen state with
  | none R hnone =>
    have hnone' : R'.shortest? = none := by rw [h.shortest?_eq, hnone, Option.map_none]
    rw [explore_of_none hnone, explore_of_none hnone']
  | some R j hsome ih =>
    have hsome' : R'.shortest? = some (embed j) := by rw [h.shortest?_eq, hsome, Option.map_some]
    have hwork := h.sum_excess_eq fun r hr => of_mem_candidates (j := j) hr
    rw [explore_of_some hsome, explore_of_some hsome', h.candidates_eq, hwork]
    unfold exploreEach
    rw [foldUntil_map]
    apply foldUntil_congr
    intro r hr state
    rw [h.effort_eq hr, ← ih r hr (h.choose hr), List.map_append, List.map_singleton]

end Embeds

end Residual

end ExactCover
