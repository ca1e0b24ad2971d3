import ExactCover.Search
import ExactCover.Proofs.Linking

/-!
# Hiding 1s and putting them back

`L.Lacks gone` says what the links `L` of a matrix hold once the 1s in `gone` are
hidden: in every vertical list exactly the other 1s of the column, in the order of the
matrix, and as the size of the column their number. Hiding a further 1 keeps the
invariant, and putting it back next gives the same links as before. So the walks that
cover a column hide all that they meet, and the walks in the other direction undo it.

Results:
* `Lacks.hide`, `Lacks.unhide_hide`: one 1 is hidden, and put back.
* `hideRow_eq_ok`, `unhideRow_eq_ok`: the rest of a row.
* `cover_eq_ok`, `uncover_eq_ok`: all rows of a column, and the column.
-/

namespace ExactCover

open BitMatrix

variable {m : BitMatrix}

/-- The 1s of a column that are not in `gone`. -/
def BitMatrix.standing (m : BitMatrix) (gone : List m.One) (j : Fin m.width) : List m.One :=
  (m.onesInColumn j).filter (· ∉ gone)

theorem mem_standing {gone : List m.One} {j : Fin m.width} {i : m.One} :
    i ∈ m.standing gone j ↔ m.columnOf i = j ∧ i ∉ gone := by
  simp [standing]

theorem nodup_standing (gone : List m.One) (j : Fin m.width) : (m.standing gone j).Nodup :=
  (nodup_onesInColumn j).filter _

theorem standing_congr {gone gone' : List m.One} {j : Fin m.width}
    (h : ∀ i, m.columnOf i = j → (i ∈ gone ↔ i ∈ gone')) :
    m.standing gone j = m.standing gone' j :=
  List.filter_congr fun i hi => by simp [h i (mem_onesInColumn.1 hi)]

theorem standing_cons {gone : List m.One} {j : Fin m.width} {i : m.One} :
    m.standing (i :: gone) j = (m.standing gone j).filter (· ≠ i) := by
  unfold standing
  rw [List.filter_filter]
  apply List.filter_congr
  intro i' _
  simp [not_or]

theorem standing_cons_of_ne {gone : List m.One} {j : Fin m.width} {i : m.One}
    (hj : m.columnOf i ≠ j) : m.standing (i :: gone) j = m.standing gone j := by
  rw [standing_cons]
  apply List.filter_eq_self.2
  intro i' hi'
  have hcolumn : m.columnOf i' = j := (mem_standing.1 hi').1
  have hne : i' ≠ i := fun heq => hj (heq ▸ hcolumn)
  exact decide_eq_true hne

theorem length_standing_cons {gone : List m.One} {i : m.One} (hi : i ∉ gone) :
    (m.standing (i :: gone) (m.columnOf i)).length =
      (m.standing gone (m.columnOf i)).length - 1 := by
  have hmem : i ∈ m.standing gone (m.columnOf i) := mem_standing.2 ⟨rfl, hi⟩
  have herase : (m.standing gone (m.columnOf i)).filter (· ≠ i) =
      (m.standing gone (m.columnOf i)).erase i := by
    rw [(nodup_standing _ _).erase_eq_filter]
    exact List.filter_congr fun i' _ => by simp [bne, beq_eq_decide]
  rw [standing_cons, herase, List.length_erase_of_mem hmem]

/-- The 1s that are hidden when column `j` is covered: the rest of each row that is left
    in it. -/
def BitMatrix.hiddenBy (m : BitMatrix) (gone : List m.One) (j : Fin m.width) : List m.One :=
  (m.standing gone j).flatMap m.restOfRow

theorem nodup_flatMap_restOfRow {j : Fin m.width} {is : List m.One}
    (hcolumn : ∀ i ∈ is, m.columnOf i = j) (hnodup : is.Nodup) :
    (is.flatMap m.restOfRow).Nodup := by
  refine List.nodup_flatMap.2 ⟨fun i _ => nodup_restOfRow i, ?_⟩
  refine List.Pairwise.imp_of_mem (fun {a b} ha hb hne => ?_) hnodup
  -- Different 1s of one column lie in different rows.
  intro i hia hib
  have hrow : m.rowOf a = m.rowOf b := (mem_restOfRow.1 hia).1.symm.trans (mem_restOfRow.1 hib).1
  exact hne (one_ext hrow ((hcolumn a ha).trans (hcolumn b hb).symm))

/-- The 1s of a list can be hidden one after another. -/
structure Fresh (gone is : List m.One) : Prop where
  nodup : is.Nodup
  notMem : ∀ i ∈ is, i ∉ gone

theorem fresh_restOfRow {gone : List m.One} {i : m.One} (h : ∀ i' ∈ m.restOfRow i, i' ∉ gone) :
    Fresh gone (m.restOfRow i) :=
  ⟨nodup_restOfRow i, h⟩

theorem Fresh.left {gone xs ys : List m.One} (h : Fresh gone (xs ++ ys)) : Fresh gone xs :=
  ⟨(List.nodup_append.1 h.nodup).1, fun i hi => h.notMem i (List.mem_append_left ys hi)⟩

theorem Fresh.right {gone xs ys : List m.One} (h : Fresh gone (xs ++ ys)) :
    Fresh (xs ++ gone) ys := by
  obtain ⟨-, hys, hdisjoint⟩ := List.nodup_append.1 h.nodup
  refine ⟨hys, fun i hi hmem => ?_⟩
  rcases List.mem_append.1 hmem with hxs | hgone
  · exact hdisjoint i hxs i hi rfl
  · exact h.notMem i (List.mem_append_right xs hi) hgone

/-- The rest of a row is hidden in other columns than the one that is covered. -/
theorem standing_flatMap_restOfRow {gone is : List m.One} {j : Fin m.width}
    (hcolumn : ∀ i ∈ is, m.columnOf i = j) :
    m.standing (is.flatMap m.restOfRow ++ gone) j = m.standing gone j := by
  apply standing_congr
  intro i hi
  have hrest : i ∉ is.flatMap m.restOfRow := by
    intro hmem
    obtain ⟨i', hi', hrest⟩ := List.mem_flatMap.1 hmem
    exact columnOf_ne_of_mem_restOfRow hrest (hi.trans (hcolumn i' hi').symm)
  simp [hrest]

/-! ## One 1 -/

namespace LinkedMatrix

/-- The vertical lists hold all 1s but those in `gone`; all else but the horizontal list
    is as in the matrix. -/
structure Lacks (L : LinkedMatrix m.width m.ones.length) (gone : List m.One) : Prop
    extends L.Fixed where
  vertical : ∀ j, L.vertical.IsRing (sentinel (headerOf j) :: (m.standing gone j).map m.node)
  size : ∀ j, L.size (headerOf j) = (m.standing gone j).length

theorem lacks_ofMatrix (m : BitMatrix) : (ofMatrix m).Lacks [] where
  toFixed := fixed_ofMatrix m
  vertical j := by simpa [standing] using vertical_ofMatrix m j
  size j := by simpa [standing] using size_ofMatrix m j

variable {L : LinkedMatrix m.width m.ones.length} {gone : List m.One} {i : m.One}
  {j : Fin m.width}

theorem Lacks.detach (h : L.Lacks gone) (k : Header m.width) : (L.detach k).Lacks gone :=
  ⟨h.toFixed.detach k, h.vertical, h.size⟩

/-- Only the set of the hidden 1s matters. -/
theorem Lacks.congr {gone' : List m.One} (h : L.Lacks gone) (hgone : ∀ i, i ∈ gone ↔ i ∈ gone') :
    L.Lacks gone' := by
  have hstanding : ∀ j, m.standing gone j = m.standing gone' j :=
    fun j => standing_congr fun i _ => hgone i
  exact ⟨h.toFixed, fun j => hstanding j ▸ h.vertical j, fun j => hstanding j ▸ h.size j⟩

theorem Lacks.size_pos (h : L.Lacks gone) (hi : i ∉ gone) : 0 < L.size (L.column (m.node i)) := by
  rw [h.column_node, h.size]
  exact List.length_pos_of_mem (mem_standing.2 ⟨rfl, hi⟩)

theorem node_mem (hi : i ∉ gone) :
    m.node i ∈ sentinel (headerOf (m.columnOf i)) ::
      (m.standing gone (m.columnOf i)).map m.node := by
  simp [mem_standing, hi]

theorem Lacks.vertical_hide_self (h : L.Lacks gone) (hi : i ∉ gone) :
    (L.hide (m.node i)).vertical.IsRing (sentinel (headerOf (m.columnOf i)) ::
      (m.standing (i :: gone) (m.columnOf i)).map m.node) := by
  have hremove := (h.vertical (m.columnOf i)).remove_filter (node_mem hi) List.mem_cons_self
    (nodeOf_ne_sentinel _ _).symm
  have hfilter : (sentinel (headerOf (m.columnOf i)) ::
      (m.standing gone (m.columnOf i)).map m.node).filter (· ≠ m.node i) =
      sentinel (headerOf (m.columnOf i)) ::
        ((m.standing gone (m.columnOf i)).filter (· ≠ i)).map m.node := by
    rw [List.filter_cons_of_pos (by simp), List.filter_map]
    congr 2
    exact List.filter_congr fun i' _ => by simp
  rw [standing_cons, ← hfilter]
  exact hremove

theorem Lacks.vertical_hide_of_ne (h : L.Lacks gone) (hi : i ∉ gone) (hj : m.columnOf i ≠ j) :
    (L.hide (m.node i)).vertical.IsRing
      (sentinel (headerOf j) :: (m.standing (i :: gone) j).map m.node) := by
  have hring := h.vertical (m.columnOf i)
  have hcolumn : ∀ j, ∀ i' ∈ m.standing gone j, m.columnOf i' = j :=
    fun j i' hi' => (mem_standing.1 hi').1
  -- The neighbours of the node lie in its own column.
  have hoff : ∀ p ∈ sentinel (headerOf (m.columnOf i)) ::
      (m.standing gone (m.columnOf i)).map m.node,
      p ∉ sentinel (headerOf j) :: (m.standing gone j).map m.node := by
    intro p hp hp'
    have heq := (column_of_mem (hcolumn _) hp).symm.trans (column_of_mem (hcolumn _) hp')
    exact hj (headerOf_inj.1 heq)
  rw [standing_cons_of_ne hj]
  exact (h.vertical j).remove_of_notMem (hoff _ (hring.prev_mem (node_mem hi)))
    (hoff _ (hring.next_mem (node_mem hi)))

theorem Lacks.hide (h : L.Lacks gone) (hi : i ∉ gone) : (L.hide (m.node i)).Lacks (i :: gone) := by
  refine ⟨h.toFixed.hide _, fun j => ?_, fun j => ?_⟩
  · by_cases hj : m.columnOf i = j
    · subst hj
      exact h.vertical_hide_self hi
    · exact h.vertical_hide_of_ne hi hj
  · rw [size_hide, h.column_node]
    by_cases hj : m.columnOf i = j
    · subst hj
      rw [if_pos rfl, h.size, length_standing_cons hi]
    · rw [if_neg (by simpa using Ne.symm hj), h.size, standing_cons_of_ne hj]

theorem Lacks.unhide_hide (h : L.Lacks gone) (hi : i ∉ gone) :
    (L.hide (m.node i)).unhide (m.node i) = L := by
  have hring := h.vertical (m.columnOf i)
  exact LinkedMatrix.unhide_hide (hring.next_prev (node_mem hi)) (hring.prev_next (node_mem hi))
    (hring.next_ne (node_mem hi) List.mem_cons_self (nodeOf_ne_sentinel _ _).symm) (h.size_pos hi)

/-! ## A list of 1s -/

/-- The links with the 1s of a list hidden, one after another. -/
def hideAll (L : LinkedMatrix m.width m.ones.length) (is : List m.One) :
    LinkedMatrix m.width m.ones.length :=
  is.foldl (fun L i => L.hide (m.node i)) L

theorem hideAll_append (is is' : List m.One) : L.hideAll (is ++ is') = (L.hideAll is).hideAll is' :=
  List.foldl_append

theorem horizontal_hideAll (L : LinkedMatrix m.width m.ones.length) (is : List m.One) :
    (L.hideAll is).horizontal = L.horizontal := by
  induction is generalizing L with
  | nil => rfl
  | cons i is ih => exact ih (L.hide (m.node i))

theorem across_hideAll (L : LinkedMatrix m.width m.ones.length) (is : List m.One) :
    (L.hideAll is).across = L.across := by
  induction is generalizing L with
  | nil => rfl
  | cons i is ih => exact ih (L.hide (m.node i))

theorem Lacks.hideAll {is : List m.One} (h : L.Lacks gone) (hfresh : Fresh gone is) :
    (L.hideAll is).Lacks (is ++ gone) := by
  induction is generalizing L gone with
  | nil => exact h
  | cons i is ih =>
    have hi : i ∉ gone := hfresh.notMem i (by simp)
    have hrest : Fresh (i :: gone) is := @Fresh.right m gone [i] is hfresh
    apply (ih (h.hide hi) hrest).congr
    intro i'
    simp only [List.mem_append, List.mem_cons]
    tauto

theorem Lacks.unhide_hideAll {is : List m.One} (h : L.Lacks gone)
    (hfresh : Fresh gone (is ++ [i])) :
    (L.hideAll (is ++ [i])).unhide (m.node i) = L.hideAll is := by
  rw [hideAll_append]
  exact (h.hideAll hfresh.left).unhide_hide (hfresh.right.notMem i (by simp))

end LinkedMatrix

/-! ## The rest of a row -/

namespace Search

open LinkedMatrix

variable {s : Search m.width m.ones.length} {L : LinkedMatrix m.width m.ones.length}
  {gone : List m.One} {i : m.One} {j : Fin m.width}

/-- The search after the 1s of a list are hidden, one after another. -/
def hideAll (s : Search m.width m.ones.length) (is : List m.One) : Search m.width m.ones.length :=
  { s with links := s.links.hideAll is, updates := s.updates + is.length }

theorem hideAll_append (is is' : List m.One) :
    s.hideAll (is ++ is') = (s.hideAll is).hideAll is' := by
  simp [hideAll, LinkedMatrix.hideAll_append, Nat.add_assoc]

theorem hide_eq_ok (h : s.links.Lacks gone) (hi : i ∉ gone) :
    s.hide (m.node i) = .ok (s.hideAll [i]) := by
  have hsize := h.size_pos hi
  unfold hide
  dsimp only
  rw [if_neg (by omega)]
  rfl

theorem hideRow_eq_ok (h : s.links.Lacks gone) (hclear : ∀ i' ∈ m.restOfRow i, i' ∉ gone) :
    s.hideRow (m.node i) = .ok (s.hideAll (m.restOfRow i)) := by
  have hring := h.right_ring i
  refine walk_eq_ok (m.restOfRow i) m.node (fun xs _ => s.hideAll xs) rfl rfl hring.nodup
    hring.next_start ?_
  intro xs i' ys hrest
  have hfresh : Fresh gone (xs ++ [i'] ++ ys) := by
    rw [List.append_assoc, List.singleton_append, ← hrest]
    exact fresh_restOfRow hclear
  refine ⟨?_, ?_⟩
  · show (s.hideAll xs).hide (m.node i') = .ok (s.hideAll (xs ++ [i']))
    rw [hideAll_append]
    exact hide_eq_ok (h.hideAll hfresh.left.left) (hfresh.left.right.notMem i' (by simp))
  · have hring' := (h.hideAll hfresh.left).right_ring i
    rw [hrest, List.map_append] at hring'
    exact hring'.next_of_append

theorem unhideRow_eq_ok (h : L.Lacks gone) (hclear : ∀ i' ∈ m.restOfRow i, i' ∉ gone)
    (hs : s.links = L.hideAll (m.restOfRow i)) :
    s.unhideRow (m.node i) = .ok { s with links := L } := by
  have hfresh := fresh_restOfRow hclear
  have hring := (h.right_ring i).flip
  rw [← List.map_reverse] at hring
  have hstart : s.links.left (m.node i) =
      ((m.restOfRow i).reverse.map m.node).headD (m.node i) := by
    have hleft : s.links.left (m.node i) = L.across.flip.next (m.node i) := by
      rw [hs]
      exact congrArg (Rings.prev · _) (across_hideAll L _)
    rw [hleft, hring.next_start]
  refine walk_eq_ok (m.restOfRow i).reverse m.node
    (fun _ ys => { s with links := L.hideAll ys.reverse }) (by rw [List.reverse_reverse, ← hs]) rfl
    hring.nodup hstart ?_
  intro xs i' ys hrest
  have hsplit : m.restOfRow i = ys.reverse ++ [i'] ++ xs.reverse := by
    have := congrArg List.reverse hrest
    simpa using this
  refine ⟨?_, ?_⟩
  · rw [List.reverse_cons]
    have hundo := h.unhide_hideAll (hsplit ▸ hfresh).left
    exact congrArg (fun L => Except.ok { s with links := L }) hundo
  · have hleft : (L.hideAll ys.reverse).left (m.node i') = L.across.flip.next (m.node i') :=
      congrArg (Rings.prev · _) (across_hideAll L _)
    refine hleft.trans ?_
    rw [hrest, List.map_append] at hring
    exact hring.next_of_append

/-! ## A column -/

theorem fresh_hiddenBy (hclear : ∀ i ∈ m.hiddenBy gone j, i ∉ gone) :
    Fresh gone (m.hiddenBy gone j) :=
  ⟨nodup_flatMap_restOfRow (fun _ hi => (mem_standing.1 hi).1) (nodup_standing gone j), hclear⟩

/-- The rest of a row of the column comes after the rest of the rows above it. -/
theorem fresh_rowsAbove {xs ys : List m.One} (hfresh : Fresh gone (m.hiddenBy gone j))
    (hstanding : m.standing gone j = xs ++ i :: ys) :
    Fresh gone (xs.flatMap m.restOfRow ++ m.restOfRow i) := by
  unfold hiddenBy at hfresh
  rw [hstanding, List.flatMap_append, List.flatMap_cons, ← List.append_assoc] at hfresh
  exact hfresh.left

/-- While the rows of a column are hidden, the vertical list of the column itself
    stays. -/
theorem vertical_hideAll (h : L.Lacks gone) (hfresh : Fresh gone (m.hiddenBy gone j))
    {xs ys : List m.One} (hxs : m.standing gone j = xs ++ ys) :
    (L.hideAll (xs.flatMap m.restOfRow)).vertical.IsRing
      (sentinel (headerOf j) :: (m.standing gone j).map m.node) := by
  have hleft : Fresh gone (xs.flatMap m.restOfRow) := by
    unfold hiddenBy at hfresh
    rw [hxs, List.flatMap_append] at hfresh
    exact hfresh.left
  have hcolumn : ∀ i ∈ xs, m.columnOf i = j := by
    intro i hi
    have hmem : i ∈ m.standing gone j := by
      rw [hxs]
      exact List.mem_append_left ys hi
    exact (mem_standing.1 hmem).1
  have hring := (h.hideAll hleft).vertical j
  rwa [standing_flatMap_restOfRow hcolumn] at hring

theorem cover_eq_ok (h : s.links.Lacks gone) (hjoined : s.links.horizontal.Joined (headerOf j))
    (hclear : ∀ i ∈ m.hiddenBy gone j, i ∉ gone) :
    s.cover (headerOf j) =
      .ok (hideAll { s with links := s.links.detach (headerOf j) } (m.hiddenBy gone j)) := by
  have hfresh := fresh_hiddenBy hclear
  have hdetach := h.detach (headerOf j)
  have hring := hdetach.vertical j
  unfold cover
  rw [if_pos hjoined, h.head]
  refine walk_eq_ok (m.standing gone j) m.node
    (fun xs _ => hideAll { s with links := s.links.detach (headerOf j) } (xs.flatMap m.restOfRow))
    rfl rfl hring.nodup hring.next_start ?_
  intro xs i ys hstanding
  have hrows := fresh_rowsAbove hfresh hstanding
  have hconcat : (xs ++ [i]).flatMap m.restOfRow = xs.flatMap m.restOfRow ++ m.restOfRow i := by
    simp
  refine ⟨?_, ?_⟩
  · rw [hconcat, hideAll_append]
    exact hideRow_eq_ok (hdetach.hideAll hrows.left) hrows.right.notMem
  · have hring' := vertical_hideAll hdetach hfresh
      (hstanding.trans (List.append_cons xs i ys))
    rw [hstanding, List.map_append] at hring'
    exact hring'.next_of_append

/-- The rows of a column come back from bottom to top. -/
theorem walk_unhideRow_eq_ok (h : L.Lacks gone) (hclear : ∀ i ∈ m.hiddenBy gone j, i ∉ gone)
    (hs : s.links = L.hideAll (m.hiddenBy gone j)) :
    walk (fun s => s.links.up) unhideRow (sentinel (headerOf j)) s = .ok { s with links := L } := by
  have hfresh := fresh_hiddenBy hclear
  -- The list from bottom to top, as it is when the 1s in the rest of the rows of `xs` are hidden.
  have hflip : ∀ {xs ys : List m.One}, m.standing gone j = xs ++ ys →
      (L.hideAll (xs.flatMap m.restOfRow)).vertical.flip.IsRing
        (sentinel (headerOf j) :: (m.standing gone j).reverse.map m.node) := by
    intro xs ys hxs
    rw [List.map_reverse]
    exact (vertical_hideAll h hfresh hxs).flip
  have hring := hflip (List.append_nil _).symm
  rw [← hiddenBy, ← hs] at hring
  refine walk_eq_ok (m.standing gone j).reverse m.node
    (fun _ ys => { s with links := L.hideAll (ys.reverse.flatMap m.restOfRow) })
    (by rw [List.reverse_reverse, ← hiddenBy, ← hs]) rfl hring.nodup hring.next_start ?_
  intro xs i ys hstanding
  have hsplit : m.standing gone j = ys.reverse ++ i :: xs.reverse := by
    have := congrArg List.reverse hstanding
    simpa using this
  have hrows := fresh_rowsAbove hfresh hsplit
  refine ⟨?_, ?_⟩
  · have hconcat : (i :: ys).reverse.flatMap m.restOfRow =
        ys.reverse.flatMap m.restOfRow ++ m.restOfRow i := by simp
    rw [hconcat, LinkedMatrix.hideAll_append]
    exact unhideRow_eq_ok (h.hideAll hrows.left) hrows.right.notMem rfl
  · have hring' := hflip hsplit
    rw [hstanding, List.map_append] at hring'
    exact hring'.next_of_append

theorem uncover_eq_ok {l : List (Header m.width)} (h : L.Lacks gone) (hl : L.horizontal.IsRing l)
    (hroot : root ∈ l) (hj : headerOf j ∈ l) (hclear : ∀ i ∈ m.hiddenBy gone j, i ∉ gone)
    (hs : s.links = (L.detach (headerOf j)).hideAll (m.hiddenBy gone j)) :
    s.uncover (headerOf j) = .ok { s with links := L } := by
  have hdetach := h.detach (headerOf j)
  have hparted : s.links.horizontal.Parted (headerOf j) := by
    rw [hs, horizontal_hideAll]
    exact hl.parted_remove hj hroot (headerOf_ne_root j).symm
  have hattach : (L.detach (headerOf j)).attach (headerOf j) = L :=
    congrArg (fun r => { L with horizontal := r })
      (hl.restore_remove hj hroot (headerOf_ne_root j).symm)
  have hhead : s.links.head (headerOf j) = sentinel (headerOf j) := by
    rw [hs]
    exact (hdetach.hideAll (fresh_hiddenBy hclear)).head (headerOf j)
  unfold uncover
  rw [if_pos hparted, hhead, walk_unhideRow_eq_ok hdetach hclear hs]
  exact congrArg (fun L => Except.ok { s with links := L }) hattach

end Search

end ExactCover
