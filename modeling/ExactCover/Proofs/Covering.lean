import ExactCover.Proofs.Hiding

/-!
# The links after properly nested coverings

As uncovering a column gives back the links from before it was covered, the links only
depend on the columns that are covered and on the order in which they were:
`LinkedMatrix.ofCovered m js` are the links of `m` with the columns `js` covered, the
last one first. A 1 is hidden in them if its row meets one of the columns and no earlier
one, and if it does not itself lie in that column. So the list of an active column holds
the rows that avoid all covered columns, and the list of a covered column those that
avoid all columns covered before it.

Results:
* `notMem_hiddenAfter`, `notMem_hiddenAfter_append`: which 1s of a column are not
  hidden.
* `lacks_ofCovered`, `horizontal_ofCovered`: what the links hold.
* `cover_after`, `uncover_after`, `coverRow_after`, `uncoverRow_after`: what the
  operations do.
* `Nested.eq_after`: every properly nested state is one of these.
-/

namespace ExactCover

open BitMatrix

variable {m : BitMatrix}

/-- Whether row `r` has no 1 in the columns `js`. -/
def BitMatrix.avoids (m : BitMatrix) (js : List (Fin m.width)) (r : Nat) : Bool :=
  js.all (!m.entry r ·)

/-- The 1s that are hidden when the columns `js` are covered, the last one first. -/
def BitMatrix.hiddenAfter (m : BitMatrix) : List (Fin m.width) → List m.One
  | [] => []
  | j :: js => m.hiddenBy (m.hiddenAfter js) j ++ m.hiddenAfter js

/-- The links of a matrix with the columns `js` covered, the last one first. -/
def LinkedMatrix.ofCovered (m : BitMatrix) :
    List (Fin m.width) → LinkedMatrix m.width m.ones.length
  | [] => .ofMatrix m
  | j :: js => ((ofCovered m js).detach (headerOf j)).hideAll (m.hiddenBy (m.hiddenAfter js) j)

/-! ## Which 1s are hidden -/

variable {js earlier later : List (Fin m.width)} {j : Fin m.width} {i : m.One} {r : Nat}

theorem avoids_iff : m.avoids js r = true ↔ ∀ j ∈ js, m.entry r j = false := by
  simp [avoids]

theorem avoids_cons : m.avoids (j :: js) r = (!m.entry r j && m.avoids js r) := rfl

theorem avoids_append : m.avoids (earlier ++ later) r = (m.avoids earlier r && m.avoids later r) :=
  List.all_append

/-- To cover a column hides the rest of the rows that meet it, if they avoid what was
    covered before. -/
theorem mem_hiddenBy {gone : List m.One}
    (hgone : ∀ i, m.columnOf i = j → (i ∉ gone ↔ m.avoids js (m.rowOf i) = true)) :
    i ∈ m.hiddenBy gone j ↔
      m.columnOf i ≠ j ∧ m.entry (m.rowOf i) j = true ∧ m.avoids js (m.rowOf i) = true := by
  simp only [hiddenBy, List.mem_flatMap, mem_standing]
  constructor
  · rintro ⟨i', ⟨rfl, hi'⟩, hrest⟩
    have hrow := (mem_restOfRow.1 hrest).1
    refine ⟨columnOf_ne_of_mem_restOfRow hrest, ?_, ?_⟩
    · rw [hrow]
      exact entry_of_one i'
    · rw [hrow]
      exact (hgone i' rfl).1 hi'
  · rintro ⟨hne, hentry, havoids⟩
    obtain ⟨i', hrow, rfl⟩ := exists_one hentry
    refine ⟨i', ⟨rfl, (hgone i' rfl).2 (hrow ▸ havoids)⟩, mem_restOfRow.2 ⟨hrow.symm, ?_⟩⟩
    rintro rfl
    exact hne rfl

/-- In an active column the 1s of the rows that avoid all covered columns are left. -/
theorem notMem_hiddenAfter (hnodup : js.Nodup) (hi : m.columnOf i ∉ js) :
    i ∉ m.hiddenAfter js ↔ m.avoids js (m.rowOf i) = true := by
  induction js generalizing i with
  | nil => simp [hiddenAfter, avoids]
  | cons j js ih =>
    obtain ⟨hj, hnodup⟩ := List.nodup_cons.1 hnodup
    obtain ⟨hne, hi⟩ := List.ne_and_not_mem_of_not_mem_cons hi
    have hgone : ∀ i, m.columnOf i = j → (i ∉ m.hiddenAfter js ↔ m.avoids js (m.rowOf i) = true) :=
      fun i hij => ih hnodup (hij ▸ hj)
    rw [hiddenAfter, List.mem_append, not_or, mem_hiddenBy hgone, ih hnodup hi, avoids_cons]
    cases m.entry (m.rowOf i) j <;> cases m.avoids js (m.rowOf i) <;> simp [hne]

theorem mem_hiddenBy_hiddenAfter (hnodup : (j :: js).Nodup) :
    i ∈ m.hiddenBy (m.hiddenAfter js) j ↔
      m.columnOf i ≠ j ∧ m.entry (m.rowOf i) j = true ∧ m.avoids js (m.rowOf i) = true := by
  obtain ⟨hj, hnodup⟩ := List.nodup_cons.1 hnodup
  exact mem_hiddenBy fun i hij => notMem_hiddenAfter hnodup (hij ▸ hj)

/-- In a covered column the 1s of the rows that avoid all columns covered before it are
    left. -/
theorem notMem_hiddenAfter_append (hnodup : (later ++ m.columnOf i :: earlier).Nodup) :
    i ∉ m.hiddenAfter (later ++ m.columnOf i :: earlier) ↔ m.avoids earlier (m.rowOf i) = true := by
  induction later with
  | nil =>
    obtain ⟨hi, hnodup'⟩ := List.nodup_cons.1 hnodup
    rw [List.nil_append, hiddenAfter, List.mem_append, not_or, mem_hiddenBy_hiddenAfter hnodup,
      notMem_hiddenAfter hnodup' hi]
    simp
  | cons k later ih =>
    -- The row meets a column covered before `k`, so covering `k` does not concern it.
    have hmeets : m.avoids (later ++ m.columnOf i :: earlier) (m.rowOf i) = false := by
      simp [avoids_append, avoids_cons, entry_of_one]
    rw [List.cons_append] at hnodup ⊢
    rw [hiddenAfter, List.mem_append, not_or, mem_hiddenBy_hiddenAfter hnodup, hmeets,
      ih (List.nodup_cons.1 hnodup).2]
    simp

/-- Only rows that meet a covered column are hidden. -/
theorem avoids_of_mem_hiddenAfter (hnodup : js.Nodup) (hi : i ∈ m.hiddenAfter js) :
    m.avoids js (m.rowOf i) = false := by
  induction js with
  | nil => simp [hiddenAfter] at hi
  | cons j js ih =>
    rw [avoids_cons]
    rcases List.mem_append.1 hi with hi | hi
    · simp [((mem_hiddenBy_hiddenAfter hnodup).1 hi).2.1]
    · simp [ih (List.nodup_cons.1 hnodup).2 hi]

/-- What is hidden when a further column is covered has not been hidden before. -/
theorem notMem_of_mem_hiddenBy (hnodup : (j :: js).Nodup) :
    ∀ i ∈ m.hiddenBy (m.hiddenAfter js) j, i ∉ m.hiddenAfter js := by
  intro i hi hmem
  have havoids := ((mem_hiddenBy_hiddenAfter hnodup).1 hi).2.2
  rw [avoids_of_mem_hiddenAfter (List.nodup_cons.1 hnodup).2 hmem] at havoids
  cases havoids

/-- The rows in the list of an active column. -/
theorem map_rowOf_standing (hnodup : js.Nodup) (hj : j ∉ js) :
    (m.standing (m.hiddenAfter js) j).map m.rowOf =
      (List.range m.height).filter fun r => m.entry r j && m.avoids js r := by
  rw [← map_rowOf_filter, standing]
  congr 1
  apply List.filter_congr
  intro i hi
  rw [mem_onesInColumn] at hi
  simp [notMem_hiddenAfter hnodup (hi ▸ hj)]

/-- The list of a covered column is what it was when the column was covered. -/
theorem standing_hiddenAfter_append (hnodup : (later ++ j :: earlier).Nodup) :
    m.standing (m.hiddenAfter (later ++ j :: earlier)) j =
      m.standing (m.hiddenAfter earlier) j := by
  obtain ⟨hj, hearlier⟩ := List.nodup_cons.1 (List.nodup_append.1 hnodup).2.1
  apply List.filter_congr
  intro i hi
  rw [mem_onesInColumn] at hi
  subst hi
  simp [notMem_hiddenAfter_append hnodup, notMem_hiddenAfter hearlier hj]

/-- The rows in the list of a covered column. -/
theorem map_rowOf_standing_append (hnodup : (later ++ j :: earlier).Nodup) :
    (m.standing (m.hiddenAfter (later ++ j :: earlier)) j).map m.rowOf =
      (List.range m.height).filter fun r => m.entry r j && m.avoids earlier r := by
  obtain ⟨hj, hearlier⟩ := List.nodup_cons.1 (List.nodup_append.1 hnodup).2.1
  rw [standing_hiddenAfter_append hnodup, map_rowOf_standing hearlier hj]

/-! ## What the links hold -/

namespace LinkedMatrix

theorem lacks_ofCovered (hnodup : js.Nodup) : (ofCovered m js).Lacks (m.hiddenAfter js) := by
  induction js with
  | nil => exact lacks_ofMatrix m
  | cons j js ih =>
    have hlacks := (ih (List.nodup_cons.1 hnodup).2).detach (headerOf j)
    exact hlacks.hideAll (Search.fresh_hiddenBy (notMem_of_mem_hiddenBy hnodup))

/-- The horizontal list holds the columns that are not covered. -/
theorem horizontal_ofCovered (hnodup : js.Nodup) :
    (ofCovered m js).horizontal.IsRing
      (root :: ((List.finRange m.width).filter (· ∉ js)).map headerOf) := by
  induction js with
  | nil => simpa [ofCovered] using horizontal_ofMatrix m
  | cons j js ih =>
    obtain ⟨hj, hnodup⟩ := List.nodup_cons.1 hnodup
    have hmem : headerOf j ∈
        root :: ((List.finRange m.width).filter (· ∉ js)).map headerOf := by simp [hj]
    have hremove := (ih hnodup).remove_filter hmem List.mem_cons_self (headerOf_ne_root j).symm
    have hfilter : (root :: ((List.finRange m.width).filter (· ∉ js)).map headerOf).filter
        (· ≠ headerOf j) =
        root :: ((List.finRange m.width).filter (· ∉ j :: js)).map headerOf := by
      rw [List.filter_cons_of_pos (by simpa using (headerOf_ne_root j).symm), List.filter_map,
        List.filter_filter]
      congr 2
      apply List.filter_congr
      intro j' _
      simp [not_or]
    rw [hfilter] at hremove
    rw [ofCovered, horizontal_hideAll]
    exact hremove

end LinkedMatrix

/-! ## What the operations do -/

/-- The number of 1s that are hidden when the columns `l` are covered one after another,
    the columns `js` being covered before. -/
def BitMatrix.coverWork (m : BitMatrix) : (js l : List (Fin m.width)) → Nat
  | _, [] => 0
  | js, j :: l => (m.hiddenBy (m.hiddenAfter js) j).length + coverWork m (j :: js) l

theorem coverWork_concat (js l : List (Fin m.width)) (j : Fin m.width) :
    m.coverWork js (l ++ [j]) =
      m.coverWork js l + (m.hiddenBy (m.hiddenAfter (l.reverse ++ js)) j).length := by
  induction l generalizing js with
  | nil => simp [coverWork]
  | cons k l ih => simp [coverWork, ih, Nat.add_assoc]

namespace Search

open LinkedMatrix

variable {t : List (Node m.width m.ones.length)} {u : Nat}

/-- The search with the columns `js` covered, the last one first. -/
def after (m : BitMatrix) (js : List (Fin m.width)) (trail : List (Node m.width m.ones.length))
    (updates : Nat) : Search m.width m.ones.length where
  links := .ofCovered m js
  trail := trail
  updates := updates

theorem cover_after (hnodup : (j :: js).Nodup) :
    (after m js t u).cover (headerOf j) =
      .ok (after m (j :: js) t (u + (m.hiddenBy (m.hiddenAfter js) j).length)) := by
  obtain ⟨hj, hnodup'⟩ := List.nodup_cons.1 hnodup
  have hjoined : (ofCovered m js).horizontal.Joined (headerOf j) :=
    (horizontal_ofCovered hnodup').joined (by simp [hj])
  exact cover_eq_ok (lacks_ofCovered hnodup') hjoined (notMem_of_mem_hiddenBy hnodup)

theorem uncover_after (hnodup : (j :: js).Nodup) :
    (after m (j :: js) t u).uncover (headerOf j) = .ok (after m js t u) := by
  obtain ⟨hj, hnodup'⟩ := List.nodup_cons.1 hnodup
  exact uncover_eq_ok (lacks_ofCovered hnodup') (horizontal_ofCovered hnodup') List.mem_cons_self
    (by simp [hj]) (notMem_of_mem_hiddenBy hnodup) rfl

/-- The columns of the rest of the row of `i` are covered from left to right. -/
theorem coverRow_after (hnodup : (((m.restOfRow i).map m.columnOf).reverse ++ js).Nodup) :
    (after m js t u).coverRow (m.node i) =
      .ok (after m (((m.restOfRow i).map m.columnOf).reverse ++ js) t
        (u + m.coverWork js ((m.restOfRow i).map m.columnOf))) := by
  have hring : ∀ {js}, js.Nodup →
      (ofCovered m js).across.IsRing (m.node i :: (m.restOfRow i).map m.node) :=
    fun hnodup => (lacks_ofCovered hnodup).right_ring i
  have hjs : js.Nodup := (List.nodup_append.1 hnodup).2.1
  refine walk_eq_ok (m.restOfRow i) m.node
    (fun xs _ => after m ((xs.map m.columnOf).reverse ++ js) t
      (u + m.coverWork js (xs.map m.columnOf)))
    rfl rfl (hring hjs).nodup (hring hjs).next_start ?_
  intro xs i' ys hrest
  have hconcat : ((xs ++ [i']).map m.columnOf).reverse ++ js =
      m.columnOf i' :: ((xs.map m.columnOf).reverse ++ js) := by simp
  have hnodup' : (m.columnOf i' :: ((xs.map m.columnOf).reverse ++ js)).Nodup := by
    rw [hrest] at hnodup
    simp only [List.map_append, List.map_cons, List.reverse_append, List.reverse_cons,
      List.append_assoc, List.singleton_append] at hnodup
    exact (List.nodup_append.1 hnodup).2.1
  have hlacks := lacks_ofCovered (List.nodup_cons.1 hnodup').2
  refine ⟨?_, ?_⟩
  · have hcolumn := hlacks.column_node i'
    show (after m _ t _).cover ((ofCovered m _).column (m.node i')) = _
    rw [hcolumn, cover_after hnodup', hconcat, List.map_append, List.map_singleton,
      coverWork_concat, Nat.add_assoc]
  · rw [hconcat]
    have hring' := hring hnodup'
    rw [hrest, List.map_append] at hring'
    exact hring'.next_of_append

/-- The columns of the rest of the row of `i` are uncovered from right to left. -/
theorem uncoverRow_after (hnodup : (((m.restOfRow i).map m.columnOf).reverse ++ js).Nodup) :
    (after m (((m.restOfRow i).map m.columnOf).reverse ++ js) t u).uncoverRow (m.node i) =
      .ok (after m js t u) := by
  have hring : ∀ {js}, js.Nodup →
      (ofCovered m js).across.flip.IsRing (m.node i :: (m.restOfRow i).reverse.map m.node) := by
    intro js hnodup
    rw [List.map_reverse]
    exact ((lacks_ofCovered hnodup).right_ring i).flip
  refine walk_eq_ok (m.restOfRow i).reverse m.node
    (fun _ ys => after m (ys.map m.columnOf ++ js) t u) (by rw [List.map_reverse]) rfl
    (hring hnodup).nodup (hring hnodup).next_start ?_
  intro xs i' ys hrest
  have hnodup' : (m.columnOf i' :: (ys.map m.columnOf ++ js)).Nodup := by
    rw [← List.map_reverse, hrest, List.map_append, List.append_assoc] at hnodup
    exact (List.nodup_append.1 hnodup).2.1
  refine ⟨?_, ?_⟩
  · have hcolumn := (lacks_ofCovered hnodup').column_node i'
    show (after m _ t _).uncover ((ofCovered m (m.columnOf i' :: (ys.map m.columnOf ++ js))).column
      (m.node i')) = _
    rw [hcolumn]
    exact uncover_after hnodup'
  · have hring' := hring (List.nodup_cons.1 hnodup').2
    rw [hrest, List.map_append] at hring'
    exact hring'.next_of_append

/-! ## Properly nested states -/

/-- In a properly nested state the links are those with the covered columns covered in
    their order, and nothing is chosen. -/
theorem Nested.eq_after {s : Search m.width m.ones.length} (h : Nested m js s) :
    js.Nodup ∧ s = after m js [] s.updates := by
  induction h with
  | start => exact ⟨List.nodup_nil, rfl⟩
  | @cover js j s t hs hj hcover ih =>
    obtain ⟨hnodup, heq⟩ := ih
    have hnodup' := List.nodup_cons.2 ⟨hj, hnodup⟩
    rw [heq, cover_after hnodup'] at hcover
    cases hcover
    exact ⟨hnodup', rfl⟩
  | @uncover js j s t hs huncover ih =>
    obtain ⟨hnodup, heq⟩ := ih
    rw [heq, uncover_after hnodup] at huncover
    cases huncover
    exact ⟨(List.nodup_cons.1 hnodup).2, rfl⟩

theorem Nested.exists_cover {s : Search m.width m.ones.length} (h : Nested m js s) (hj : j ∉ js) :
    ∃ t, s.cover (headerOf j) = .ok t ∧ Nested m (j :: js) t := by
  obtain ⟨hnodup, hs⟩ := h.eq_after
  have hcover := cover_after (t := []) (u := s.updates) (List.nodup_cons.2 ⟨hj, hnodup⟩)
  rw [← hs] at hcover
  exact ⟨_, hcover, .cover h hj hcover⟩

theorem Nested.exists_uncover {s : Search m.width m.ones.length} (h : Nested m (j :: js) s) :
    ∃ t, s.uncover (headerOf j) = .ok t ∧ Nested m js t := by
  obtain ⟨hnodup, hs⟩ := h.eq_after
  have huncover := uncover_after (t := []) (u := s.updates) hnodup
  rw [← hs] at huncover
  exact ⟨_, huncover, .uncover h huncover⟩

/-- Different columns can be covered in any order. -/
theorem exists_nested (hnodup : js.Nodup) : ∃ u, Nested m js (after m js [] u) := by
  induction js with
  | nil => exact ⟨0, .start⟩
  | cons j js ih =>
    obtain ⟨hj, hnodup'⟩ := List.nodup_cons.1 hnodup
    obtain ⟨u, hnested⟩ := ih hnodup'
    exact ⟨_, .cover hnested hj (cover_after hnodup)⟩

end Search

end ExactCover
