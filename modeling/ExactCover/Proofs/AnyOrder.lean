import ExactCover.Proofs.Frames
import ExactCover.Proofs.NestedLists
import ExactCover.Proofs.Orientation
import ExactCover.Proofs.Threading

/-!
# Coverings and uncoverings in any order

What holds after calls that need not be properly nested. The vertical lists may then be
wrong, but the horizontal list is not: it always holds the columns that were not covered
last, and the checks of `cover` and `uncover` tell whether a column can leave the list
or come back into it.

Results:
* `stands_performAll`: the horizontal list after any calls.
* `performAll_lists`: the list, what the checks tell, and what no call changes.
-/

namespace ExactCover

open Rings

variable {c : Nat} {calls : List (Call c)} {j : Fin c}

/-! ## The columns that stand -/

theorem standsAfter_concat_cover (calls : List (Call c)) (j : Fin c) :
    standsAfter (calls ++ [.cover j]) = Function.update (standsAfter calls) j false := by
  funext j'
  rw [Function.update_apply, standsAfter, standsAfter, List.filter_append, List.getLast?_append]
  by_cases hj : j = j'
  · simp [Call.column, hj]
  · simp [Call.column, hj, Ne.symm hj]

theorem standsAfter_concat_uncover (calls : List (Call c)) (j : Fin c) :
    standsAfter (calls ++ [.uncover j]) = Function.update (standsAfter calls) j true := by
  funext j'
  rw [Function.update_apply, standsAfter, standsAfter, List.filter_append, List.getLast?_append]
  by_cases hj : j = j'
  · simp [Call.column, hj]
  · simp [Call.column, hj, Ne.symm hj]

/-- Column `j` is not in the list of the columns `active`, and of the two positions that
    its links name the second follows the first in this list, taken around. -/
def Rings.HasGap (r : Rings (c + 1)) (active : Fin c → Bool) (j : Fin c) : Prop :=
  headerOf j ∉ headersOf active ∧
    [r.prev (headerOf j), r.next (headerOf j)] <:+: headersOf active ++ [root]

namespace Search

open LinkedMatrix

variable {m : BitMatrix} {s t : Search m.width m.ones.length} {active : Fin m.width → Bool}
  {calls : List (Call m.width)} {call : Call m.width} {j : Fin m.width}

/-! ## One call -/

/-- The links lead one way, and the horizontal list holds the given columns. -/
structure Stands (s : Search m.width m.ones.length) (active : Fin m.width → Bool) : Prop where
  oriented : s.links.Oriented
  threaded : s.links.horizontal.Threaded active

theorem joined_of_cover (ht : s.cover (headerOf j) = .ok t) :
    s.links.horizontal.Joined (headerOf j) := by
  by_contra hj
  rw [Search.cover, if_neg hj] at ht
  cases ht

theorem oriented_cover (hs : s.links.Oriented) (ht : s.cover (headerOf j) = .ok t) :
    t.links.Oriented := by
  have hmeets := cover_meets hs (joined_of_cover ht)
  rw [ht] at hmeets
  exact hmeets.1

theorem Stands.cover (h : s.Stands active) (ht : s.cover (headerOf j) = .ok t) :
    t.Stands (Function.update active j false) := by
  have hjoined := joined_of_cover ht
  have hmeets := cover_meets h.oriented hjoined
  rw [ht] at hmeets
  refine ⟨hmeets.1, ?_⟩
  rw [hmeets.2]
  exact h.threaded.remove (h.threaded.joined_iff.1 hjoined)

theorem Stands.uncover (h : s.Stands active) (ht : s.uncover (headerOf j) = .ok t) :
    t.Stands (Function.update active j true) := by
  have hparted : s.links.horizontal.Parted (headerOf j) := by
    by_contra hj
    rw [Search.uncover, if_neg hj] at ht
    cases ht
  obtain ⟨t', ht', horiented, hhorizontal⟩ := exists_uncover h.oriented hparted
  obtain rfl : t = t' := Except.ok.inj (ht.symm.trans ht')
  refine ⟨horiented, ?_⟩
  rw [hhorizontal]
  exact h.threaded.restore hparted

theorem Stands.perform (h : s.Stands (standsAfter calls)) (ht : s.perform call = .ok t) :
    t.Stands (standsAfter (calls ++ [call])) := by
  cases call with
  | cover j =>
    rw [standsAfter_concat_cover]
    exact h.cover ht
  | uncover j =>
    rw [standsAfter_concat_uncover]
    exact h.uncover ht

/-! ## All calls -/

theorem stands_ofMatrix (m : BitMatrix) : (ofMatrix m).Stands fun _ => true :=
  ⟨oriented_ofMatrix m, threaded_cycle m.width⟩

theorem performAll_concat_eq_ok :
    s.performAll (calls ++ [call]) = .ok t ↔
      ∃ s', s.performAll calls = .ok s' ∧ s'.perform call = .ok t := by
  simp only [performAll, List.foldlM_append, List.foldlM_cons, List.foldlM_nil, bind_pure,
    bind_eq_ok_iff]

/-- After any calls that have all returned, the horizontal list holds the columns that
    stand. -/
theorem stands_performAll (h : (ofMatrix m).performAll calls = .ok t) :
    t.Stands (standsAfter calls) := by
  induction calls using List.reverseRecOn generalizing t with
  | nil =>
    cases h
    exact stands_ofMatrix m
  | append_singleton calls call ih =>
    obtain ⟨s, hs, ht⟩ := performAll_concat_eq_ok.1 h
    exact (ih hs).perform ht

/-! ## The next call -/

/-- A covering is refused if the column is not in the list, and otherwise returns or
    comes to a column that is counted as empty. -/
theorem Stands.cover_cases (h : s.Stands active) :
    headerOf j ∈ headersOf active ∧ ((∃ t, s.cover (headerOf j) = .ok t) ∨
        ∃ k, s.cover (headerOf j) = .error (.alreadyEmpty k)) ∨
      headerOf j ∉ headersOf active ∧
        s.cover (headerOf j) = .error (.alreadyCovered (headerOf j)) := by
  rw [headerOf_mem_headersOf, ← h.threaded.joined_iff]
  by_cases hjoined : s.links.horizontal.Joined (headerOf j)
  · have hmeets := cover_meets h.oriented hjoined
    refine .inl ⟨hjoined, ?_⟩
    cases hcover : s.cover (headerOf j) with
    | ok t => exact .inl ⟨t, rfl⟩
    | error fault =>
      rw [hcover] at hmeets
      obtain ⟨k, rfl⟩ := hmeets
      exact .inr ⟨k, rfl⟩
  · exact .inr ⟨hjoined, by rw [Search.cover, if_neg hjoined]⟩

theorem Stands.cover_eq_error_iff (h : s.Stands active) :
    s.cover (headerOf j) = .error (.alreadyCovered (headerOf j)) ↔
      headerOf j ∉ headersOf active := by
  rcases h.cover_cases (j := j) with ⟨hmem, ⟨t, ht⟩ | ⟨k, hk⟩⟩ | ⟨hmem, hfault⟩
  · simp [ht, hmem]
  · simp [hk, hmem]
  · simp [hfault, hmem]

/-- A covering never runs on for ever. -/
theorem Stands.cover_ne_unclosedList (h : s.Stands active) :
    s.cover (headerOf j) ≠ .error .unclosedList := by
  rcases h.cover_cases (j := j) with ⟨-, ⟨t, ht⟩ | ⟨k, hk⟩⟩ | ⟨-, hfault⟩
  · simp [ht]
  · simp [hk]
  · simp [hfault]

/-- An uncovering returns if the column has a gap to return to, and is refused
    otherwise. -/
theorem Stands.uncover_cases (h : s.Stands active) :
    (∃ t, s.uncover (headerOf j) = .ok t) ∧ s.links.horizontal.HasGap active j ∨
      s.uncover (headerOf j) = .error (.notDetached (headerOf j)) ∧
        ¬ s.links.horizontal.HasGap active j := by
  have hgap : s.links.horizontal.Parted (headerOf j) ↔ s.links.horizontal.HasGap active j := by
    rw [h.threaded.parted_iff, HasGap, headerOf_mem_headersOf, Bool.not_eq_true]
  rw [← hgap]
  by_cases hparted : s.links.horizontal.Parted (headerOf j)
  · obtain ⟨t, ht, -⟩ := exists_uncover h.oriented hparted
    exact .inl ⟨⟨t, ht⟩, hparted⟩
  · exact .inr ⟨by rw [Search.uncover, if_neg hparted], hparted⟩

/-- **The horizontal list under calls in any order.** After coverings and uncoverings of
    columns in any order that have all returned, the root and the columns that were not
    called for or were uncovered last form a closed list in the order of the matrix, in
    both directions. The next covering of a column fails its check if and only if the
    column is not in this list. The next uncovering of a column passes its check if and
    only if the column is not in the list and the two positions that its own links name
    are and stand next to each other; it then returns. Neither runs on for ever. The
    lists across the matrix, the columns and rows of the nodes, the sentinels of the
    headers and the number of rows are those of the matrix, and the lengths of the
    tables are fixed by their types. -/
theorem performAll_lists (h : (ofMatrix m).performAll calls = .ok t) :
    t.links.horizontal.IsRing (headersOf (standsAfter calls)) ∧
    (∀ j, t.cover (headerOf j) = .error (.alreadyCovered (headerOf j)) ↔
      headerOf j ∉ headersOf (standsAfter calls)) ∧
    (∀ j, t.uncover (headerOf j) ≠ .error (.notDetached (headerOf j)) ↔
      t.links.horizontal.HasGap (standsAfter calls) j) ∧
    (∀ j, (∃ t', t.uncover (headerOf j) = .ok t') ↔
      t.links.horizontal.HasGap (standsAfter calls) j) ∧
    (∀ j, t.cover (headerOf j) ≠ .error .unclosedList) ∧
    t.links.across = (LinkedMatrix.ofMatrix m).across ∧
    t.links.columns = (LinkedMatrix.ofMatrix m).columns ∧
    t.links.rows = (LinkedMatrix.ofMatrix m).rows ∧
    t.links.heads = (LinkedMatrix.ofMatrix m).heads ∧
    t.links.height = m.height := by
  have hstands := stands_performAll h
  refine ⟨hstands.threaded.ring, fun j => hstands.cover_eq_error_iff, fun j => ?_, fun j => ?_,
    fun j => hstands.cover_ne_unclosedList, hstands.oriented.across, hstands.oriented.columns,
    hstands.oriented.rows, hstands.oriented.heads, hstands.oriented.height⟩
  · rcases hstands.uncover_cases (j := j) with ⟨⟨t', ht'⟩, hgap⟩ | ⟨hfault, hgap⟩
    · simp [ht', hgap]
    · simp [hfault, hgap]
  · rcases hstands.uncover_cases (j := j) with ⟨ht', hgap⟩ | ⟨hfault, hgap⟩
    · simp [ht', hgap]
    · simp [hfault, hgap]

/-- Column 3 of the sample is uncovered first although columns 0 and 1 were covered
    after it. Column 1 can be uncovered next, but column 0 cannot: its link to the right
    names column 1. -/
theorem performAll_lists_sample :
    ∃ t, (ofMatrix sample).performAll [.cover 3, .cover 0, .cover 1, .uncover 3] = .ok t ∧
      t.links.horizontal.IsRing [0, 3, 4, 5, 6, 7] ∧
      t.cover (headerOf 0) = .error (.alreadyCovered 1) ∧
      t.uncover (headerOf 0) = .error (.notDetached 1) ∧
      ∃ t', t.uncover (headerOf 1) = .ok t' := by
  have hlinks : ((ofMatrix sample).performAll [.cover 3, .cover 0, .cover 1, .uncover 3]).map
      (fun t => (t.links.horizontal.prev 1, t.links.horizontal.next 1, t.links.horizontal.prev 2,
        t.links.horizontal.next 2)) = .ok (0, 2, 0, 3) := by decide +kernel
  cases hcalls : (ofMatrix sample).performAll [.cover 3, .cover 0, .cover 1, .uncover 3] with
  | error fault =>
    rw [hcalls] at hlinks
    cases hlinks
  | ok t =>
    rw [hcalls] at hlinks
    have hlist : headersOf (standsAfter [.cover 3, .cover 0, .cover 1, .uncover 3]) =
        ([0, 3, 4, 5, 6, 7] : List (Header sample.width)) := by decide
    obtain ⟨hring, hcover, hrefused, hreturns, -⟩ := performAll_lists hcalls
    rw [hlist] at hring hcover
    obtain ⟨hprev0, hnext0, hprev1, hnext1⟩ :
        t.links.horizontal.prev 1 = 0 ∧ t.links.horizontal.next 1 = 2 ∧
          t.links.horizontal.prev 2 = 0 ∧ t.links.horizontal.next 2 = 3 := by
      simpa [Except.map] using hlinks
    refine ⟨t, rfl, hring, (hcover 0).2 (by decide), ?_, (hreturns 1).2 ⟨?_, ?_⟩⟩
    · by_contra hne
      have hgap := ((hrefused 0).1 hne).2
      rw [hlist] at hgap
      rw [show headerOf (0 : Fin sample.width) = 1 from rfl, hprev0, hnext0] at hgap
      revert hgap
      decide
    · rw [hlist]
      decide
    · rw [hlist, show headerOf (1 : Fin sample.width) = 2 from rfl, hprev1, hnext1]
      decide

end Search

end ExactCover
