import ExactCover.Proofs.AnyOrder
import ExactCover.Proofs.Choice

/-!
# Covering several columns

Any number of coverings can be undone at any time, as long as the last one is undone
first: each uncovering finds the links as its covering left them. So in a properly
nested session the links are those of the matrix whenever no column is covered, and
never otherwise, because the horizontal list lacks every column that is covered.

To cover the columns of a row, other than that of one of its 1s, is to cover them one
after another from this 1 on to the right, around the row. Covering a column of the row
leaves the other ones in the horizontal list, so it can be done if and only if they are
all there at the start; otherwise the first one that is not there is named. Whether the
column of the 1 itself is covered, or the row is hidden, does not matter.

Columns can be covered in any order. The links that are kept inside covered columns tell
the order, but nothing that a search goes on to read does: the horizontal list, and the
vertical lists and sizes of the active columns, only depend on which columns are
covered. Nor does the work: each row that meets one of the columns is hidden once,
whichever of its columns comes first.

Results:
* `coverAll_after`, `uncoverAll_after`: what covering and uncovering several columns
  does.
* `uncoverAll_coverAll`: coverings that are undone leave no trace in the links.
* `Nested.stands`, `Nested.balanced`: what is known of properly nested states and of
  what comes after them.
* `coverRow_eq_coverAll`: the columns of a row as a list of columns, in any state.
* `coverRow_of_nested`: when the columns of a row can be covered, and that they can be
  uncovered then.
* `presents_ofCovered`: what the links of a properly nested state show of the active
  columns.
* `coverAll_perm`: two orders of covering the same columns.
-/

namespace ExactCover

open BitMatrix

/-! ## Coverings are undone in the opposite order -/

section

variable {m : BitMatrix} {js l : List (Fin m.width)}

theorem LinkedMatrix.ofCovered_eq_ofMatrix_iff (hnodup : js.Nodup) :
    ofCovered m js = ofMatrix m ↔ js = [] := by
  constructor
  · intro heq
    have hactive : (ofCovered m js).activeColumns = (ofCovered m []).activeColumns :=
      congrArg activeColumns heq
    rw [activeColumns_ofCovered hnodup, activeColumns_ofCovered List.nodup_nil] at hactive
    have hcolumns := (List.map_injective_iff.2 headerOf_injective) (Except.ok.inj hactive)
    apply List.eq_nil_iff_forall_not_mem.2
    intro j hj
    have hmem : j ∈ (List.finRange m.width).filter (· ∉ ([] : List (Fin m.width))) := by simp
    rw [← hcolumns] at hmem
    simp [hj] at hmem
  · rintro rfl
    rfl

namespace Search

section

variable {c k : Nat}

/-- Covers columns, one after another. -/
def coverAll (s : Search c k) (l : List (Fin c)) : Except Fault (Search c k) :=
  l.foldlM (fun s j => s.cover (headerOf j)) s

/-- Uncovers columns, one after another. -/
def uncoverAll (s : Search c k) (l : List (Fin c)) : Except Fault (Search c k) :=
  l.foldlM (fun s j => s.uncover (headerOf j)) s

end

variable {t : List (Node m.width m.ones.length)} {u : Nat}

theorem coverAll_after (hnodup : (l.reverse ++ js).Nodup) :
    (after m js t u).coverAll l = .ok (after m (l.reverse ++ js) t (u + m.coverWork js l)) := by
  induction l generalizing js u with
  | nil => rfl
  | cons j l ih =>
    have hsplit : (j :: l).reverse ++ js = l.reverse ++ j :: js := by simp
    rw [hsplit] at hnodup ⊢
    have hcover : (j :: js).Nodup := (List.nodup_append.1 hnodup).2.1
    unfold coverAll
    rw [List.foldlM_cons, cover_after hcover, coverWork, ← Nat.add_assoc]
    exact ih hnodup

theorem uncoverAll_after (hnodup : (l ++ js).Nodup) :
    (after m (l ++ js) t u).uncoverAll l = .ok (after m js t u) := by
  induction l with
  | nil => rfl
  | cons j l ih =>
    rw [List.cons_append] at hnodup ⊢
    unfold uncoverAll
    rw [List.foldlM_cons, uncover_after hnodup]
    exact ih (List.nodup_cons.1 hnodup).2

/-- **Uncovering is the exact inverse of covering.** In every properly nested state,
    different active columns can be covered in any order, and uncovering them in the
    opposite order gives back the state with all its links and sizes; only the count of
    updates tells that something happened. So the links are those that were built from
    the matrix if and only if no column is covered. -/
theorem uncoverAll_coverAll {s : Search m.width m.ones.length} (h : Nested m js s) :
    (∀ l : List (Fin m.width), l.Nodup → (∀ j ∈ l, j ∉ js) →
      ∃ t, s.coverAll l = .ok t ∧ t.uncoverAll l.reverse = .ok { s with updates := t.updates }) ∧
    (s.links = .ofMatrix m ↔ js = []) := by
  obtain ⟨hjs, hs⟩ := h.eq_after
  rw [hs]
  refine ⟨fun l hl hactive => ?_, LinkedMatrix.ofCovered_eq_ofMatrix_iff hjs⟩
  have hnodup : (l.reverse ++ js).Nodup :=
    (List.nodup_reverse.2 hl).append hjs fun j hj => hactive j (List.mem_reverse.1 hj)
  exact ⟨_, coverAll_after hnodup, uncoverAll_after hnodup⟩

/-- Three columns of the sample are covered and uncovered while another one stays
    covered. -/
theorem uncoverAll_coverAll_sample :
    ∃ s t, Nested sample [4] s ∧ s.links ≠ .ofMatrix sample ∧ s.coverAll [3, 0, 6] = .ok t ∧
      t.uncoverAll [6, 0, 3] = .ok { s with updates := t.updates } := by
  have hnodup : ([4] : List (Fin sample.width)).Nodup := by decide
  obtain ⟨u, h⟩ := exists_nested hnodup
  obtain ⟨hundo, hlinks⟩ := uncoverAll_coverAll h
  obtain ⟨t, hcover, huncover⟩ := hundo [3, 0, 6] (by decide) (by decide)
  exact ⟨_, t, h, fun heq => by simpa using hlinks.1 heq, hcover, huncover⟩

end Search

end

/-! ## Covering the columns of a row -/

namespace Search

variable {m : BitMatrix} {js l xs ys : List (Fin m.width)} {j : Fin m.width} {i : m.One}
  {s t : Search m.width m.ones.length} {calls : List (Call m.width)}

/-! ### Properly nested states -/

/-- In a properly nested state the horizontal list holds the columns that are not
    covered. -/
theorem Nested.stands (h : Nested m js s) : s.Stands fun j => decide (j ∉ js) := by
  induction h with
  | start => simpa using stands_ofMatrix m
  | @cover js j s t hs hj hcover ih =>
    have hupdate : Function.update (fun j => decide (j ∉ js)) j false =
        fun j' => decide (j' ∉ j :: js) := by
      funext j'
      by_cases hj' : j' = j <;> simp [hj']
    rw [← hupdate]
    exact ih.cover hcover
  | @uncover js j s t hs huncover ih =>
    have hj : j ∉ js := (List.nodup_cons.1 hs.eq_after.1).1
    have hupdate : Function.update (fun j' => decide (j' ∉ j :: js)) j true =
        fun j => decide (j ∉ js) := by
      funext j'
      by_cases hj' : j' = j <;> simp [hj', hj]
    rw [← hupdate]
    exact ih.uncover huncover

theorem Nested.cover_eq_error (h : Nested m js s) (hj : j ∈ js) :
    s.cover (headerOf j) = .error (.alreadyCovered (headerOf j)) :=
  h.stands.cover_eq_error_iff.2 (by simpa using hj)

theorem Nested.notMem_of_cover (h : Nested m js s) (ht : s.cover (headerOf j) = .ok t) :
    j ∉ js := by
  intro hj
  rw [h.cover_eq_error hj] at ht
  cases ht

/-- After coverings that have all been undone in the opposite order, the same columns
    are covered. -/
theorem Nested.balanced (hcalls : Balanced calls) (h : Nested m js s)
    (ht : s.performAll calls = .ok t) : Nested m js t := by
  induction hcalls generalizing js s t with
  | nil =>
    cases ht
    exact h
  | @nest j inner rest _ _ hinner hrest =>
    rw [performAll, List.foldlM_cons] at ht
    obtain ⟨s₁, hcover, ht⟩ := bind_eq_ok_iff.1 ht
    rw [List.foldlM_append] at ht
    obtain ⟨s₂, hinside, ht⟩ := bind_eq_ok_iff.1 ht
    rw [List.foldlM_cons] at ht
    obtain ⟨s₃, huncover, ht⟩ := bind_eq_ok_iff.1 ht
    have h₁ : Nested m (j :: js) s₁ := .cover h (h.notMem_of_cover hcover) hcover
    exact hrest (.uncover (hinner h₁ hinside) huncover) ht

/-! ### Several columns -/

theorem Nested.exists_coverAll (h : Nested m js s) (hl : l.Nodup) (hactive : ∀ j ∈ l, j ∉ js) :
    ∃ t, s.coverAll l = .ok t ∧ Nested m (l.reverse ++ js) t := by
  induction l generalizing js s with
  | nil => exact ⟨s, rfl, h⟩
  | cons j l ih =>
    obtain ⟨hj, hl⟩ := List.nodup_cons.1 hl
    obtain ⟨t, hcover, ht⟩ := h.exists_cover (hactive j List.mem_cons_self)
    obtain ⟨t', hcoverAll, ht'⟩ := ih ht hl fun j' hj' => by
      have hne : j' ≠ j := fun heq => hj (heq ▸ hj')
      simp [hne, hactive j' (List.mem_cons_of_mem j hj')]
    refine ⟨t', ?_, by simpa using ht'⟩
    rw [coverAll, List.foldlM_cons, hcover]
    exact hcoverAll

/-- Where some columns cannot be covered, the first one that is covered is named. -/
theorem Nested.coverAll_eq_error (h : Nested m js s) (hl : l.Nodup)
    (hfirst : l.find? (· ∈ js) = some j) :
    s.coverAll l = .error (.alreadyCovered (headerOf j)) := by
  obtain ⟨hj, xs, ys, rfl, hxs⟩ := List.find?_eq_some_iff_append.1 hfirst
  have hactive : ∀ j' ∈ xs, j' ∉ js := fun j' hj' => by simpa using hxs j' hj'
  obtain ⟨t, hcover, ht⟩ := h.exists_coverAll (List.nodup_append.1 hl).1 hactive
  have hmem : j ∈ xs.reverse ++ js := List.mem_append_right _ (by simpa using hj)
  have hsplit : s.coverAll (xs ++ j :: ys) = s.coverAll xs >>= (·.coverAll (j :: ys)) :=
    List.foldlM_append
  rw [hsplit, hcover]
  show t.coverAll (j :: ys) = _
  rw [coverAll, List.foldlM_cons, ht.cover_eq_error hmem]
  rfl

/-! ### The columns of a row -/

/-- To cover the other columns of a row is to cover them one after another, around the
    row. -/
theorem coverRow_eq_coverAll (hs : s.links.Oriented) (i : m.One) :
    s.coverRow (m.node i) = s.coverAll ((m.restOfRow i).map m.columnOf) := by
  have hvisit : ∀ (s t : Search m.width m.ones.length) (i : m.One), s.links.Oriented →
      s.cover (s.links.column (m.node i)) = .ok t → t.links.Oriented := by
    intro s t i hs ht
    rw [hs.column_node] at ht
    exact oriented_cover hs ht
  unfold coverRow
  rw [walk_right_eq hs (fun s i t hs ht => hvisit s t i hs ht)]
  generalize m.restOfRow i = is
  induction is generalizing s with
  | nil => rfl
  | cons i' is ih =>
    rw [List.map_cons, List.map_cons, List.foldlM_cons, coverAll, List.foldlM_cons, hs.column_node]
    cases hcover : s.cover (headerOf (m.columnOf i')) with
    | error fault => rfl
    | ok t => exact ih (oriented_cover hs hcover)

theorem nodup_map_columnOf_restOfRow (i : m.One) : ((m.restOfRow i).map m.columnOf).Nodup :=
  (List.nodup_cons.1 (nodup_choiceColumns i)).2

theorem mem_map_columnOf_restOfRow {i : m.One} {j : Fin m.width} :
    j ∈ (m.restOfRow i).map m.columnOf ↔ m.entry (m.rowOf i) j = true ∧ j ≠ m.columnOf i := by
  have hnotMem := (List.nodup_cons.1 (nodup_choiceColumns i)).1
  rw [← mem_choiceColumns, choiceColumns, List.map_cons, List.mem_cons]
  constructor
  · intro hj
    exact ⟨.inr hj, fun heq => hnotMem (heq ▸ hj)⟩
  · rintro ⟨heq | hj, hne⟩
    · exact absurd heq hne
    · exact hj

/-- **Selecting and deselecting a row.** In every properly nested state and for every 1,
    whether its own column is covered or not and whether its row is hidden or not, the
    other columns of its row can be covered if and only if none of them is covered. Then
    they have been covered one after another, in cyclic order to the right; and they can
    be uncovered at once, or after further coverings that have all been undone in the
    opposite order, which gives back all links and sizes from before. Otherwise the
    first column to the right that is covered is named as covered already. -/
theorem coverRow_of_nested (h : Nested m js s) (i : m.One) :
    ((∃ t, s.coverRow (m.node i) = .ok t) ↔
      ∀ j, m.entry (m.rowOf i) j = true → j ≠ m.columnOf i → j ∉ js) ∧
    (∀ t, s.coverRow (m.node i) = .ok t →
      s.coverAll ((m.restOfRow i).map m.columnOf) = .ok t ∧
      Nested m (((m.restOfRow i).map m.columnOf).reverse ++ js) t ∧
      ∀ calls t', Balanced calls → t.performAll calls = .ok t' →
        t'.uncoverRow (m.node i) = .ok { s with updates := t'.updates }) ∧
    (∀ fault, s.coverRow (m.node i) = .error fault →
      ∃ j, ((m.restOfRow i).map m.columnOf).find? (· ∈ js) = some j ∧
        fault = .alreadyCovered (headerOf j)) := by
  have hnodup := nodup_map_columnOf_restOfRow i
  rw [coverRow_eq_coverAll h.stands.oriented]
  cases hfirst : ((m.restOfRow i).map m.columnOf).find? (· ∈ js) with
  | some j =>
    have hfault := h.coverAll_eq_error hnodup hfirst
    have hmem := List.mem_of_find?_eq_some hfirst
    have hcovered : j ∈ js := by simpa using List.find?_some hfirst
    obtain ⟨hentry, hne⟩ := mem_map_columnOf_restOfRow.1 hmem
    rw [hfault]
    refine ⟨⟨fun ⟨t, ht⟩ => (nomatch ht), fun hactive => absurd hcovered (hactive j hentry hne)⟩,
      fun t ht => (nomatch ht), fun fault heq => ⟨j, rfl, (Except.error.inj heq).symm⟩⟩
  | none =>
    have hactive : ∀ j ∈ (m.restOfRow i).map m.columnOf, j ∉ js := by
      simpa using List.find?_eq_none.1 hfirst
    obtain ⟨t, hcover, ht⟩ := h.exists_coverAll hnodup hactive
    rw [hcover]
    refine ⟨⟨fun _ j hentry hne => hactive j (mem_map_columnOf_restOfRow.2 ⟨hentry, hne⟩),
      fun _ => ⟨t, rfl⟩⟩, fun t' ht' => ?_, fun fault heq => (nomatch heq)⟩
    cases ht'
    refine ⟨rfl, ht, fun calls t' hcalls hperform => ?_⟩
    obtain ⟨hnodup', ht'⟩ := (ht.balanced hcalls hperform).eq_after
    have huncover := uncoverRow_after (t := []) (u := t'.updates) hnodup'
    rw [← ht'] at huncover
    rw [huncover]
    exact congrArg (fun s => Except.ok { s with updates := t'.updates }) h.eq_after.2.symm

/-- With column 0 of the sample covered, the row with 1s in the columns 0, 3 and 6 can
    be selected from its 1 in column 0 and deselected again, also after column 1 was
    covered and uncovered in between. From its 1 in column 3 it cannot be selected, as
    column 0 lies to the right, around the row. -/
theorem coverRow_of_nested_sample :
    ∃ s, Nested sample [0] s ∧
      (∃ t t', s.coverRow (sample.node ⟨3, by decide⟩) = .ok t ∧
        t.performAll [.cover 1, .uncover 1] = .ok t' ∧
        t'.uncoverRow (sample.node ⟨3, by decide⟩) = .ok { s with updates := t'.updates }) ∧
      s.coverRow (sample.node ⟨4, by decide⟩) = .error (.alreadyCovered 1) := by
  have hnodup : ([0] : List (Fin sample.width)).Nodup := by decide
  obtain ⟨u, h⟩ := exists_nested hnodup
  have hbalanced : Balanced [.cover 1, .uncover (1 : Fin sample.width)] :=
    @Balanced.nest _ 1 [] [] .nil .nil
  obtain ⟨hreturns, hselected, -⟩ := coverRow_of_nested h ⟨3, by decide⟩
  obtain ⟨t, ht⟩ := hreturns.2 (by decide)
  obtain ⟨-, hnested, hundo⟩ := hselected t ht
  obtain ⟨t₁, hcover, hnested₁⟩ := hnested.exists_cover (show (1 : Fin sample.width) ∉ _ by decide)
  obtain ⟨t₂, huncover, -⟩ := hnested₁.exists_uncover
  have hbetween : t.performAll [.cover 1, .uncover 1] = .ok t₂ :=
    bind_eq_ok_iff.2 ⟨t₁, hcover, bind_eq_ok_iff.2 ⟨t₂, huncover, rfl⟩⟩
  refine ⟨_, h, ⟨t, t₂, ht, hbetween, hundo _ t₂ hbalanced hbetween⟩, ?_⟩
  obtain ⟨hreturns', -, hnamed⟩ := coverRow_of_nested h ⟨4, by decide⟩
  cases hrow : (after sample [0] [] u).coverRow (sample.node ⟨4, by decide⟩) with
  | ok t => exact absurd (hreturns'.1 ⟨t, hrow⟩) (by decide)
  | error fault =>
    obtain ⟨j, hfirst, rfl⟩ := hnamed fault hrow
    have hj : j = 0 := by simpa using List.find?_some hfirst
    rw [hj]
    rfl

end Search

/-! ## The order of coverings -/

section

variable {m : BitMatrix} {js js' l l' : List (Fin m.width)} {r : Nat}

/-- The 1s of column `j` in rows that have none in the columns `js`, from top to
    bottom. -/
def BitMatrix.onesAvoiding (m : BitMatrix) (js : List (Fin m.width)) (j : Fin m.width) :
    List m.One :=
  (m.onesInColumn j).filter (m.avoids js <| m.rowOf ·)

theorem avoids_congr (hjs : ∀ j, j ∈ js ↔ j ∈ js') (r : Nat) : m.avoids js r = m.avoids js' r := by
  rw [Bool.eq_iff_iff, avoids_iff, avoids_iff]
  simp only [hjs]

theorem standing_hiddenAfter (hnodup : js.Nodup) {j : Fin m.width} (hj : j ∉ js) :
    m.standing (m.hiddenAfter js) j = m.onesAvoiding js j := by
  apply List.filter_congr
  intro i hi
  rw [mem_onesInColumn] at hi
  simp [notMem_hiddenAfter hnodup (hi ▸ hj)]

namespace LinkedMatrix

variable {L : LinkedMatrix m.width m.ones.length}

/-- The links show the matrix less the columns `js` and the rows that meet them: the
    horizontal list holds the other columns, and the vertical list of each of these the
    1s of the other rows, in both directions; and its size is the length of its list.
    What is linked inside the columns `js` is left open. -/
structure Presents (L : LinkedMatrix m.width m.ones.length) (js : List (Fin m.width)) : Prop where
  columns : L.activeColumns = .ok (((List.finRange m.width).filter (· ∉ js)).map headerOf)
  columnsBackward : L.activeColumnsBackward =
    .ok (((List.finRange m.width).filter (· ∉ js)).map headerOf).reverse
  down : ∀ j ∉ js, L.nodesDown (headerOf j) = .ok ((m.onesAvoiding js j).map m.node)
  up : ∀ j ∉ js, L.nodesUp (headerOf j) = .ok ((m.onesAvoiding js j).map m.node).reverse
  size : ∀ j ∉ js, L.size (headerOf j) = (m.onesAvoiding js j).length

/-- Only the set of the covered columns matters. -/
theorem Presents.congr (h : L.Presents js) (hjs : ∀ j, j ∈ js ↔ j ∈ js') : L.Presents js' := by
  have hcolumns : (List.finRange m.width).filter (· ∉ js) =
      (List.finRange m.width).filter (· ∉ js') := by
    simp only [hjs]
  have hones : ∀ j, m.onesAvoiding js j = m.onesAvoiding js' j := fun j =>
    List.filter_congr fun i _ => avoids_congr hjs (m.rowOf i)
  refine ⟨hcolumns ▸ h.columns, hcolumns ▸ h.columnsBackward, fun j hj => ?_, fun j hj => ?_,
    fun j hj => ?_⟩
  all_goals rw [← hones]
  · exact h.down j (mt (hjs j).1 hj)
  · exact h.up j (mt (hjs j).1 hj)
  · exact h.size j (mt (hjs j).1 hj)

theorem presents_ofCovered (hnodup : js.Nodup) : (ofCovered m js).Presents js where
  columns := activeColumns_ofCovered hnodup
  columnsBackward := activeColumnsBackward_ofCovered hnodup
  down j hj := by
    rw [← standing_hiddenAfter hnodup hj]
    exact (lacks_ofCovered hnodup).nodesDown j
  up j hj := by
    rw [← standing_hiddenAfter hnodup hj]
    exact (lacks_ofCovered hnodup).nodesUp j
  size j hj := by rw [← standing_hiddenAfter hnodup hj, (lacks_ofCovered hnodup).size]

end LinkedMatrix

namespace Search

variable {s : Search m.width m.ones.length}

/-- What it takes to cover the columns `l` after the columns `js`: the 1s, less one, of
    each row that has a 1 in `l` and none in `js`. -/
def coverCost (m : BitMatrix) (js l : List (Fin m.width)) : Nat :=
  (((List.range m.height).filter fun r => m.avoids js r && !m.avoids l r).map
    (Residual.excess m)).sum

theorem Nested.coverAll_presents (h : Nested m js s) (hl : l.Nodup) (hactive : ∀ j ∈ l, j ∉ js) :
    ∃ t, s.coverAll l = .ok t ∧ t.links.Presents (l ++ js) ∧
      t.updates = s.updates + coverCost m js l := by
  obtain ⟨hjs, hs⟩ := h.eq_after
  have hnodup : (l.reverse ++ js).Nodup :=
    (List.nodup_reverse.2 hl).append hjs fun j hj => hactive j (List.mem_reverse.1 hj)
  have hcover := coverAll_after (t := []) (u := s.updates) hnodup
  rw [← hs, coverWork_eq hnodup] at hcover
  refine ⟨_, hcover, ?_, rfl⟩
  exact (LinkedMatrix.presents_ofCovered hnodup).congr fun j => by simp

/-- **Covering commutes as far as the rest of a search can see.** From every properly
    nested state, the same active columns can be covered in any two orders. Either way
    the horizontal list, and the vertical lists and sizes of all columns that are still
    active, are the same, in both directions, and the updates grow by the same number:
    the 1s, less one, of each row that has a 1 in one of the columns and none in a
    column that was covered before. -/
theorem coverAll_perm (h : Nested m js s) (hl : l.Nodup) (hactive : ∀ j ∈ l, j ∉ js)
    (hperm : l.Perm l') :
    ∃ t t', s.coverAll l = .ok t ∧ s.coverAll l' = .ok t' ∧
      t.links.Presents (l ++ js) ∧ t'.links.Presents (l ++ js) ∧
      t.updates = s.updates + coverCost m js l ∧ t'.updates = s.updates + coverCost m js l := by
  obtain ⟨t, ht, hpresents, hupdates⟩ := h.coverAll_presents hl hactive
  obtain ⟨t', ht', hpresents', hupdates'⟩ := h.coverAll_presents (hperm.nodup_iff.1 hl) fun j hj =>
    hactive j (hperm.mem_iff.2 hj)
  have hcost : coverCost m js l' = coverCost m js l := by
    unfold coverCost
    simp only [avoids_congr fun j => hperm.mem_iff (a := j)]
  rw [hcost] at hupdates'
  exact ⟨t, t', ht, ht', hpresents, hpresents'.congr fun j => by simp [hperm.mem_iff], hupdates,
    hupdates'⟩

/-- Two orders of covering columns 0 and 3 of the sample, with column 4 covered before.
    Column 6 has the same list, but column 3 does not: it keeps the rows from when it
    was covered. -/
theorem coverAll_perm_sample :
    ∃ s t t', Nested sample [4] s ∧ s.coverAll [0, 3] = .ok t ∧ s.coverAll [3, 0] = .ok t' ∧
      t.links.nodesDown (headerOf 6) = t'.links.nodesDown (headerOf 6) ∧ t.updates = t'.updates ∧
      t.links.rowsDown (headerOf 3) = .ok [] ∧ t'.links.rowsDown (headerOf 3) = .ok [1, 3] := by
  have hnodup : ([4] : List (Fin sample.width)).Nodup := by decide
  obtain ⟨u, h⟩ := exists_nested hnodup
  have hl : ([0, 3] : List (Fin sample.width)).Nodup := by decide
  obtain ⟨t, t', ht, ht', hpresents, hpresents', hupdates, hupdates'⟩ :=
    coverAll_perm h hl (by decide) (.swap 3 0 [])
  have hafter := @coverAll_after sample [4] [0, 3] [] u (by decide)
  have hafter' := @coverAll_after sample [4] [3, 0] [] u (by decide)
  obtain rfl := Except.ok.inj (ht.symm.trans hafter)
  obtain rfl := Except.ok.inj (ht'.symm.trans hafter')
  refine ⟨_, _, _, h, ht, ht', ?_, hupdates.trans hupdates'.symm, ?_, ?_⟩
  · rw [hpresents.down 6 (by decide), hpresents'.down 6 (by decide)]
  · exact (@LinkedMatrix.listsRows_ofCovered_append sample [] [0, 4] 3 (by decide)).down
  · exact (@LinkedMatrix.listsRows_ofCovered_append sample [0] [4] 3 (by decide)).down

end Search

end

end ExactCover
