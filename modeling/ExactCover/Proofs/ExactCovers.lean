import ExactCover.Proofs.Exploration
import ExactCover.Proofs.Ones

/-!
# The recursion finds every exact cover once

A set of rows solves a residual problem if its rows are left, each of them has a 1 in a
column that is left, and every column that is left has a 1 in exactly one of them. A
solution contains exactly one candidate of the shortest column, and without it is a
solution of what that candidate leaves. So along the recursion every solution is met in
one branch only.

Results:
* `solves_of_mem_covers`: what the recursion lists are solutions, without repetition of
  rows.
* `countP_covers`, `encard_solves`: every solution is listed exactly once.
-/

namespace ExactCover

namespace Residual

variable {m : BitMatrix} {R : Residual m} {S : Finset Nat} {j : Fin m.width} {r : Nat}

/-- The rows of `S` are an exact cover of what is left. -/
structure Solves (R : Residual m) (S : Finset Nat) : Prop where
  rows : ∀ r ∈ S, r ∈ R.rows
  meets : ∀ r ∈ S, ∃ j ∈ R.columns, m.entry r j = true
  unique : ∀ j ∈ R.columns, ∃! r, r ∈ S ∧ m.entry r j = true

/-- The rows that are left are all different and have no 1 in the columns that are not
    left. -/
structure Tight (R : Residual m) : Prop where
  nodup : R.rows.Nodup
  columns : ∀ r ∈ R.rows, ∀ j, m.entry r j = true → j ∈ R.columns

theorem mem_candidates : r ∈ R.candidates j ↔ r ∈ R.rows ∧ m.entry r j = true :=
  List.mem_filter

theorem mem_columns_choose : j ∈ (R.choose r).columns ↔ j ∈ R.columns ∧ m.entry r j = false := by
  simp [choose]

theorem meets_eq_false {r r' : Nat} :
    m.meets r r' = false ↔ ∀ j, m.entry r j = true → m.entry r' j = false := by
  simp [BitMatrix.meets]

theorem mem_rows_choose {r' : Nat} :
    r' ∈ (R.choose r).rows ↔ r' ∈ R.rows ∧ ∀ j, m.entry r j = true → m.entry r' j = false := by
  unfold choose
  rw [List.mem_filter, Bool.not_eq_true', meets_eq_false]

theorem tight_whole (m : BitMatrix) : (whole m).Tight where
  nodup := List.nodup_range
  columns _ _ j _ := List.mem_finRange j

theorem Tight.choose (h : R.Tight) (r : Nat) : (R.choose r).Tight where
  nodup := h.nodup.filter _
  columns r' hr' j hentry := by
    obtain ⟨hrows, hapart⟩ := mem_rows_choose.1 hr'
    refine mem_columns_choose.2 ⟨h.columns r' hrows j hentry, ?_⟩
    cases hr : m.entry r j with
    | false => rfl
    | true => rw [hapart j hr] at hentry; cases hentry

/-! ## What is listed is a solution -/

/-- A solution of what a candidate leaves, together with the candidate, is a
    solution. -/
theorem Solves.insert (hr : r ∈ R.candidates j) (hj : j ∈ R.columns)
    (h : (R.choose r).Solves S) : R.Solves (insert r S) where
  rows := by
    intro r' hr'
    rcases Finset.mem_insert.1 hr' with rfl | hr'
    · exact (mem_candidates.1 hr).1
    · exact (mem_rows_choose.1 (h.rows r' hr')).1
  meets := by
    intro r' hr'
    rcases Finset.mem_insert.1 hr' with rfl | hr'
    · exact ⟨j, hj, (mem_candidates.1 hr).2⟩
    · obtain ⟨j', hj', hentry⟩ := h.meets r' hr'
      exact ⟨j', (mem_columns_choose.1 hj').1, hentry⟩
  unique := by
    intro j' hj'
    cases hentry : m.entry r j' with
    | true =>
      refine ⟨r, ⟨Finset.mem_insert_self r S, hentry⟩, ?_⟩
      rintro r' ⟨hr', hentry'⟩
      rcases Finset.mem_insert.1 hr' with rfl | hr'
      · rfl
      · rw [(mem_rows_choose.1 (h.rows r' hr')).2 j' hentry] at hentry'
        cases hentry'
    | false =>
      obtain ⟨r', ⟨hr', hentry'⟩, honly⟩ := h.unique j' (mem_columns_choose.2 ⟨hj', hentry⟩)
      refine ⟨r', ⟨Finset.mem_insert_of_mem hr', hentry'⟩, ?_⟩
      rintro r'' ⟨hr'', hentry''⟩
      rcases Finset.mem_insert.1 hr'' with rfl | hr''
      · rw [hentry] at hentry''
        cases hentry''
      · exact honly r'' ⟨hr'', hentry''⟩

/-- A candidate is no part of a solution of what it leaves, as it meets itself. -/
theorem Solves.notMem (hr : r ∈ R.candidates j) (h : (R.choose r).Solves S) : r ∉ S := by
  intro hmem
  have hentry := (mem_candidates.1 hr).2
  rw [(mem_rows_choose.1 (h.rows r hmem)).2 j hentry] at hentry
  cases hentry

theorem solves_of_mem_covers {rows : List Nat} (h : rows ∈ R.covers) :
    rows.Nodup ∧ R.Solves rows.toFinset := by
  induction R using choose_induction generalizing rows with
  | none R hnone =>
    rw [covers_of_none hnone, List.mem_singleton] at h
    rw [shortest?_eq_none_iff] at hnone
    subst h
    exact ⟨List.nodup_nil, by simp, by simp, by simp [hnone]⟩
  | some R j hsome ih =>
    rw [covers_of_some hsome, List.mem_flatMap] at h
    obtain ⟨r, hr, h⟩ := h
    obtain ⟨rest, hrest, rfl⟩ := List.mem_map.1 h
    obtain ⟨hnodup, hsolves⟩ := ih r hr hrest
    have hnotMem : r ∉ rest := by simpa using hsolves.notMem hr
    rw [List.toFinset_cons]
    exact ⟨List.nodup_cons.2 ⟨hnotMem, hnodup⟩,
      hsolves.insert hr (List.mem_of_find?_eq_some hsome)⟩

/-! ## Every solution is listed once -/

/-- A solution without one of its rows solves what that row leaves. -/
theorem Solves.erase (htight : R.Tight) (h : R.Solves S) (hr : r ∈ S) :
    (R.choose r).Solves (S.erase r) := by
  -- Different rows of the solution have no 1 in the same column.
  have hapart : ∀ r' ∈ S.erase r, ∀ j, m.entry r j = true → m.entry r' j = false := by
    intro r' hr' j hentry
    obtain ⟨hne, hr'⟩ := Finset.mem_erase.1 hr'
    cases hentry' : m.entry r' j with
    | false => rfl
    | true =>
      have hj := htight.columns r (h.rows r hr) j hentry
      exact absurd ((h.unique j hj).unique ⟨hr', hentry'⟩ ⟨hr, hentry⟩) hne
  refine ⟨fun r' hr' => ?_, fun r' hr' => ?_, fun j hj => ?_⟩
  · exact mem_rows_choose.2 ⟨h.rows r' (Finset.mem_of_mem_erase hr'), hapart r' hr'⟩
  · obtain ⟨j, hj, hentry'⟩ := h.meets r' (Finset.mem_of_mem_erase hr')
    refine ⟨j, mem_columns_choose.2 ⟨hj, ?_⟩, hentry'⟩
    cases hentry : m.entry r j with
    | false => rfl
    | true => rw [hapart r' hr' j hentry] at hentry'; cases hentry'
  · obtain ⟨hj, hentry⟩ := mem_columns_choose.1 hj
    obtain ⟨r', ⟨hr', hentry'⟩, honly⟩ := h.unique j hj
    have hne : r' ≠ r := by
      rintro rfl
      rw [hentry] at hentry'
      cases hentry'
    refine ⟨r', ⟨Finset.mem_erase.2 ⟨hne, hr'⟩, hentry'⟩, ?_⟩
    rintro r'' ⟨hr'', hentry''⟩
    exact honly r'' ⟨Finset.mem_of_mem_erase hr'', hentry''⟩

/-- The branch of the candidate that belongs to the solution lists it once, the others
    do not. -/
theorem countP_branch (h : R.Solves S) (hj : j ∈ R.columns) {best : Nat}
    (hbest : best ∈ S ∧ m.entry best j = true)
    (hcount : (R.choose best).covers.countP (·.toFinset = S.erase best) = 1)
    (hr : r ∈ R.candidates j) :
    ((R.choose r).covers.map (r :: ·)).countP (·.toFinset = S) = if r = best then 1 else 0 := by
  rw [List.countP_map]
  by_cases heq : r = best
  · subst heq
    rw [if_pos rfl, ← hcount]
    apply List.countP_congr
    intro rest hrest
    have hnotMem : r ∉ rest.toFinset := (solves_of_mem_covers hrest).2.notMem hr
    simp only [Function.comp_apply, List.toFinset_cons, decide_eq_true_eq]
    constructor
    · rintro rfl
      exact (Finset.erase_insert hnotMem).symm
    · intro hrest
      rw [hrest, Finset.insert_erase hbest.1]
  · rw [if_neg heq, List.countP_eq_zero]
    intro rest _
    simp only [Function.comp_apply, List.toFinset_cons, decide_eq_true_eq]
    rintro rfl
    exact heq ((h.unique j hj).unique ⟨Finset.mem_insert_self _ _, (mem_candidates.1 hr).2⟩ hbest)

theorem countP_covers (htight : R.Tight) (h : R.Solves S) :
    R.covers.countP (·.toFinset = S) = 1 := by
  induction R using choose_induction generalizing S with
  | none R hnone =>
    have hempty : S = ∅ := by
      apply Finset.eq_empty_of_forall_notMem
      intro r hr
      obtain ⟨j, hj, -⟩ := h.meets r hr
      rw [shortest?_eq_none_iff.1 hnone] at hj
      exact absurd hj List.not_mem_nil
    simp [covers_of_none hnone, hempty]
  | some R j hsome ih =>
    have hj : j ∈ R.columns := List.mem_of_find?_eq_some hsome
    obtain ⟨best, hbest, -⟩ := h.unique j hj
    have hmem : best ∈ R.candidates j := mem_candidates.2 ⟨h.rows best hbest.1, hbest.2⟩
    have hcount := ih best hmem (htight.choose best) (h.erase htight hbest.1)
    have hnodup : (R.candidates j).Nodup := htight.nodup.filter _
    rw [covers_of_some hsome, List.countP_flatMap]
    calc ((R.candidates j).map fun r =>
          ((R.choose r).covers.map (r :: ·)).countP (·.toFinset = S)).sum
        = ((R.candidates j).map fun r => if r = best then 1 else 0).sum :=
          congrArg List.sum (List.map_congr_left fun r hr => countP_branch h hj hbest hcount hr)
      _ = (R.candidates j).count best := by
        rw [List.sum_map_ite, List.count_eq_length_filter]
        simp [beq_eq_decide]
      _ = 1 := List.count_eq_one_of_mem hnodup hmem

/-- There are as many solutions as are listed. -/
theorem encard_solves (htight : R.Tight) : {S | R.Solves S}.encard = R.covers.length := by
  have hmem : ∀ S, S ∈ R.covers.map List.toFinset ↔ R.Solves S := by
    intro S
    rw [List.mem_map]
    constructor
    · rintro ⟨rows, hrows, rfl⟩
      exact (solves_of_mem_covers hrows).2
    · intro hS
      have hpos : 0 < R.covers.countP (·.toFinset = S) := by
        rw [countP_covers htight hS]
        exact Nat.one_pos
      obtain ⟨rows, hrows, heq⟩ := List.countP_pos_iff.1 hpos
      exact ⟨rows, hrows, by simpa using heq⟩
  have hnodup : (R.covers.map List.toFinset).Nodup := by
    apply List.nodup_iff_count_le_one.2
    intro S
    by_cases hS : R.Solves S
    · rw [List.count, List.countP_map, ← countP_covers htight hS]
      apply List.countP_mono_left
      intro rows _ heq
      simpa using heq
    · rw [List.count_eq_zero_of_not_mem (mt (hmem S).1 hS)]
      exact Nat.zero_le 1
  have hset : {S | R.Solves S} = ((R.covers.map List.toFinset).toFinset : Set (Finset Nat)) := by
    ext S
    rw [Set.mem_ofPred_eq, Finset.mem_coe, List.mem_toFinset, hmem]
  rw [hset, Set.encard_coe_eq_coe_finsetCard, List.toFinset_card_of_nodup hnodup, List.length_map]

end Residual

end ExactCover
