import ExactCover.Proofs.Ones
import ExactCover.Proofs.Rings

/-!
# What linking a matrix gives

The links of a matrix are built by adding one 1 after another. After each of them, the
lists hold the 1s that have been added: the vertical lists those of each column, and the
lists across the matrix those of each row.

Results:
* `column_nodeOf`, `row_nodeOf`: what is recorded with a node.
* `horizontal_ofMatrix`, `vertical_ofMatrix`, `across_ofMatrix`: the lists of all
  columns, of the 1s of a column, and of the 1s of a row.
* `size_ofMatrix`: the number of 1s that a column is counted to have.
-/

namespace ExactCover

/-! ## Positions of nodes and headers -/

section

variable {c k : Nat}

theorem nodeOf_injective : Function.Injective (nodeOf : Fin k → Node c k) :=
  Fin.natAdd_injective k (c + 1)

theorem sentinel_injective : Function.Injective (sentinel : Header c → Node c k) :=
  Fin.castAdd_injective (c + 1) k

theorem headerOf_injective : Function.Injective (headerOf : Fin c → Header c) :=
  Fin.succ_injective c

@[simp] theorem headerOf_inj {j j' : Fin c} : headerOf j = headerOf j' ↔ j = j' :=
  headerOf_injective.eq_iff

@[simp] theorem nodeOf_inj {i i' : Fin k} : (nodeOf i : Node c k) = nodeOf i' ↔ i = i' :=
  nodeOf_injective.eq_iff

@[simp] theorem sentinel_inj {h h' : Header c} : (sentinel h : Node c k) = sentinel h' ↔ h = h' :=
  sentinel_injective.eq_iff

@[simp] theorem headerOf_ne_root (j : Fin c) : headerOf j ≠ root :=
  Fin.succ_ne_zero j

@[simp] theorem sentinel_ne_nodeOf (h : Header c) (i : Fin k) :
    (sentinel h : Node c k) ≠ nodeOf i := by
  intro heq
  have := congrArg Fin.val heq
  simp only [sentinel, nodeOf, Fin.val_castAdd, Fin.val_natAdd] at this
  omega

@[simp] theorem nodeOf_ne_sentinel (h : Header c) (i : Fin k) :
    (nodeOf i : Node c k) ≠ sentinel h :=
  (sentinel_ne_nodeOf h i).symm

end

/-! ## Adding one position after another -/

/-- What holds at the beginning of a loop and is kept by each turn holds at its end. -/
theorem foldl_invariant {α : Type} : ∀ {k : Nat} {f : α → Fin k → α} {x : α} (P : Nat → α → Prop),
    P 0 x → (∀ (i : Fin k) (x : α), P i x → P (i + 1) (f x i)) → P k (Fin.foldl k f x) := by
  intro k
  induction k with
  | zero => intro f x P h0 _; simpa using h0
  | succ k ih =>
    intro f x P h0 hstep
    rw [Fin.foldl_succ_last]
    exact hstep (Fin.last k) _ (ih P h0 fun i x hx => hstep i.castSucc x hx)

/-- The members of `l` that come before the position `t`. -/
def below {k : Nat} (t : Nat) (l : List (Fin k)) : List (Fin k) :=
  l.filter fun i => decide (i.val < t)

theorem below_zero {k : Nat} (l : List (Fin k)) : below 0 l = [] := by
  simp [below]

theorem below_all {k : Nat} (l : List (Fin k)) : below k l = l :=
  List.filter_eq_self.2 fun i _ => by simp

theorem mem_below {k t : Nat} {l : List (Fin k)} {i : Fin k} :
    i ∈ below t l ↔ i ∈ l ∧ i.val < t := by
  simp [below]

theorem below_succ_of_notMem {k : Nat} {l : List (Fin k)} {i : Fin k} (hi : i ∉ l) :
    below (i + 1) l = below i l := by
  apply List.filter_congr
  intro i' hi'
  have hne : i'.val ≠ i.val := fun heq => hi (Fin.ext heq ▸ hi')
  simp only [decide_eq_decide]
  omega

theorem below_succ_of_mem {k : Nat} {l : List (Fin k)} (hl : l.Pairwise (· < ·)) {i : Fin k}
    (hi : i ∈ l) : below (i + 1) l = below i l ++ [i] := by
  have hright : (below i l ++ [i]).Pairwise (· < ·) := by
    refine List.pairwise_append.2 ⟨hl.filter _, List.pairwise_singleton _ _, fun a ha b hb => ?_⟩
    obtain rfl : b = i := by simpa using hb
    exact (mem_below.1 ha).2
  refine (hl.filter _).eq_of_mem_iff hright fun {i'} => ?_
  have hle : i'.val < i + 1 ↔ i'.val < i ∨ i' = i := by rw [Fin.ext_iff]; omega
  rw [← below, mem_below, List.mem_append, mem_below, List.mem_singleton, hle]
  constructor
  · rintro ⟨hmem, hlt | heq⟩
    · exact .inl ⟨hmem, hlt⟩
    · exact .inr heq
  · rintro (⟨hmem, hlt⟩ | rfl)
    · exact ⟨hmem, .inl hlt⟩
    · exact ⟨hi, .inr rfl⟩

/-! ## What is recorded with a node -/

section

variable {c k : Nat} {α : Type}

theorem read_append_sentinel (t : Table (c + 1) α) (u : Table k α) (h : Header c) :
    Table.read (Vector.append t u) (sentinel h : Node c k) = t.read h := by
  exact Vector.getElem_append_left h.isLt

theorem read_append_nodeOf (t : Table (c + 1) α) (u : Table k α) (i : Fin k) :
    Table.read (Vector.append t u) (nodeOf i : Node c k) = u.read i := by
  refine (Vector.getElem_append_right (nodeOf i).isLt (Nat.le_add_right (c + 1) i)).trans ?_
  simp [Table.read, nodeOf]

end

/-- The node of a 1. -/
abbrev BitMatrix.node (m : BitMatrix) (i : m.One) : Node m.width m.ones.length := nodeOf i

namespace LinkedMatrix

open BitMatrix

variable {m : BitMatrix}

@[simp] theorem head_ofMatrix (h : Header m.width) : (ofMatrix m).head h = sentinel h :=
  Table.read_ofFn _ h

@[simp] theorem column_sentinel (h : Header m.width) : (ofMatrix m).column (sentinel h) = h :=
  (read_append_sentinel _ _ h).trans (Table.read_ofFn _ h)

@[simp] theorem column_nodeOf (i : m.One) :
    (ofMatrix m).column (nodeOf i) = headerOf (m.columnOf i) := by
  refine (read_append_nodeOf _ _ i).trans ?_
  simp [Table.read, columnOf]

@[simp] theorem row_nodeOf (i : m.One) : (ofMatrix m).row (nodeOf i) = m.rowOf i := by
  refine (read_append_nodeOf _ _ i).trans ?_
  simp [Table.read, rowOf]

/-! ## The horizontal list -/

theorem isRing_cycle (n : Nat) : (Rings.cycle n).IsRing (List.finRange (n + 1)) := by
  rw [List.finRange_succ, Rings.isRing_cons_iff, ← List.cons_append, ← List.finRange_succ]
  refine ⟨List.nodup_finRange _, List.isChain_iff_getElem.2 fun i hi => ?_⟩
  have hin : i < n + 1 := by simpa using hi
  have hfirst : (List.finRange (n + 1) ++ [0])[i] = ⟨i, hin⟩ := by
    rw [List.getElem_append_left (by simpa using hin)]
    simp
  have hsecond : (List.finRange (n + 1) ++ [0])[i + 1] = ⟨i, hin⟩ + 1 := by
    by_cases hlast : i + 1 < n + 1
    · rw [List.getElem_append_left (by simpa using hlast)]
      simp [Fin.ext_iff, Fin.val_add, Nat.mod_eq_of_lt hlast]
    · obtain rfl : i = n := by omega
      simp [Fin.ext_iff, Fin.val_add]
  rw [hfirst, hsecond]
  exact ⟨Rings.next_cycle _, by rw [Rings.prev_cycle, add_sub_cancel_right]⟩

/-- All columns are in the horizontal list. -/
theorem horizontal_ofMatrix (m : BitMatrix) :
    (ofMatrix m).horizontal.IsRing (root :: (List.finRange m.width).map headerOf) := by
  have h := isRing_cycle m.width
  rwa [List.finRange_succ] at h

/-! ## The vertical lists -/

/-- The nodes of the given 1s of a column, and its sentinel, all lie in the column. -/
theorem column_of_mem {j : Fin m.width} {l : List m.One} (hl : ∀ i ∈ l, m.columnOf i = j)
    {p : Node m.width m.ones.length} (hp : p ∈ sentinel (headerOf j) :: l.map m.node) :
    (ofMatrix m).column p = headerOf j := by
  rcases List.mem_cons.1 hp with rfl | hp
  · exact column_sentinel _
  · obtain ⟨i, hi, rfl⟩ := List.mem_map.1 hp
    rw [column_nodeOf, hl i hi]

/-- The vertical lists hold the 1s before `t`. -/
def ColumnsLinked (m : BitMatrix) (t : Nat) (r : Rings (m.width + 1 + m.ones.length)) : Prop :=
  ∀ j, r.IsRing (sentinel (headerOf j) :: (below t (m.onesInColumn j)).map m.node)

theorem columnsLinked_alone : ColumnsLinked m 0 (.alone _) := by
  intro j
  rw [below_zero, List.map_nil, Rings.isRing_singleton_iff]
  exact ⟨Rings.next_alone _, Rings.prev_alone _⟩

/-- The node of a 1 goes before the sentinel of its column, at the end of the list. -/
theorem appendDown_eq (r : Rings (m.width + 1 + m.ones.length)) (i : m.One) :
    appendDown (ofMatrix m).heads ⟨m.ones.toArray, rfl⟩ r i =
      r.insertBefore (sentinel (headerOf (m.columnOf i))) (nodeOf i) :=
  congrArg (r.insertBefore · (nodeOf i)) (head_ofMatrix _)

theorem columnsLinked_appendDown {r : Rings (m.width + 1 + m.ones.length)} (i : m.One)
    (h : ColumnsLinked m i r) :
    ColumnsLinked m (i + 1) (appendDown (ofMatrix m).heads ⟨m.ones.toArray, rfl⟩ r i) := by
  intro j
  rw [appendDown_eq]
  by_cases hj : m.columnOf i = j
  · subst hj
    have hnew : m.node i ∉ sentinel (headerOf (m.columnOf i)) ::
        (below i (m.onesInColumn (m.columnOf i))).map m.node := by
      simp [mem_below]
    rw [below_succ_of_mem (pairwise_onesInColumn _) (by simp), List.map_append]
    exact (h _).insertBefore hnew
  · rw [below_succ_of_notMem (by simpa using hj)]
    have hcolumn : ∀ j', ∀ i' ∈ below i (m.onesInColumn j'), m.columnOf i' = j' :=
      fun j' i' hi' => mem_onesInColumn.1 (mem_below.1 hi').1
    -- What lies in the column of `i` does not lie in the list of `j`.
    have hoff : ∀ p ∈ sentinel (headerOf (m.columnOf i)) ::
        (below i (m.onesInColumn (m.columnOf i))).map m.node,
        p ∉ sentinel (headerOf j) :: (below i (m.onesInColumn j)).map m.node := by
      intro p hp hp'
      have heq := (column_of_mem (hcolumn _) hp).symm.trans (column_of_mem (hcolumn _) hp')
      exact hj (headerOf_inj.1 heq)
    refine (h j).insertBefore_of_notMem (hoff _ ((h _).prev_mem (by simp))) (hoff _ (by simp)) ?_
    simp [mem_below]

/-- The vertical list of a column holds the 1s of the column. -/
theorem vertical_ofMatrix (m : BitMatrix) (j : Fin m.width) :
    (ofMatrix m).vertical.IsRing (sentinel (headerOf j) :: (m.onesInColumn j).map m.node) := by
  have h : ColumnsLinked m m.ones.length (ofMatrix m).vertical :=
    foldl_invariant (ColumnsLinked m) columnsLinked_alone fun i _ => columnsLinked_appendDown i
  have hj := h j
  rwa [below_all] at hj

/-- A column is counted to have the 1s that it has. -/
theorem size_ofMatrix (m : BitMatrix) (j : Fin m.width) :
    (ofMatrix m).size (headerOf j) = (m.onesInColumn j).length := by
  have h : ∀ j, (ofMatrix m).sizes.read (headerOf j) =
      (below m.ones.length (m.onesInColumn j)).length := by
    refine foldl_invariant (fun t sizes => ∀ j, Table.read sizes (headerOf j) =
      (below t (m.onesInColumn j)).length) (fun j => ?_) fun i sizes hsizes j => ?_
    · simp [below_zero, Table.read]
    · have hwrite : countDown ⟨m.ones.toArray, rfl⟩ sizes i =
          Table.write sizes (headerOf (m.columnOf i))
            (Table.read sizes (headerOf (m.columnOf i)) + 1) := rfl
      rw [hwrite, Table.read_write]
      by_cases hj : m.columnOf i = j
      · subst hj
        rw [if_pos rfl, hsizes, below_succ_of_mem (pairwise_onesInColumn _) (by simp)]
        simp
      · rw [if_neg (by simpa using Ne.symm hj), hsizes, below_succ_of_notMem (by simpa using hj)]
  have hj := h j
  rwa [below_all] at hj

/-! ## The lists across the matrix -/

/-- The lists across the matrix hold the 1s before `t`, and the other 1s are still
    alone. -/
structure RowsLinked (m : BitMatrix) (t : Nat) (r : Rings (m.width + 1 + m.ones.length)) :
    Prop where
  alone : ∀ i : m.One, t ≤ i.val → r.IsRing [nodeOf i]
  linked : ∀ q, r.IsRing ((below t (m.onesInRow q)).map m.node)

theorem rowsLinked_alone : RowsLinked m 0 (.alone _) where
  alone i _ := Rings.isRing_singleton_iff.2 ⟨Rings.next_alone _, Rings.prev_alone _⟩
  linked q := by
    rw [below_zero]
    exact ⟨List.nodup_nil, .nil⟩

theorem leftNeighbour?_eq_none {i : m.One}
    (h : leftNeighbour? ⟨m.ones.toArray, rfl⟩ i = none) :
    below i (m.onesInRow (m.rowOf i)) = [] := by
  apply List.eq_nil_iff_forall_not_mem.2
  intro i' hi'
  obtain ⟨hrow, hlt⟩ := mem_below.1 hi'
  rw [mem_onesInRow] at hrow
  have hpred : i.val - 1 < m.ones.length := by omega
  -- The 1 just before `i` lies between `i'` and `i`, so it lies in their row.
  have hbetween : m.rowOf ⟨i.val - 1, hpred⟩ = m.rowOf i := by
    have hmono : ∀ a b : m.One, a ≤ b → m.rowOf a ≤ m.rowOf b := by
      intro a b hab
      rcases lt_or_eq_of_le hab with hab | rfl
      · rcases lt_of_one_lt hab with hlt | ⟨heq, -⟩ <;> omega
      · exact le_rfl
    refine le_antisymm (hmono _ _ (Nat.sub_le ..)) ?_
    rw [← hrow]
    exact hmono _ _ (Nat.le_sub_one_of_lt hlt)
  have hsome : leftNeighbour? ⟨m.ones.toArray, rfl⟩ i = some ⟨i.val - 1, hpred⟩ :=
    if_pos ⟨by omega, hbetween⟩
  simp [hsome] at h

theorem leftNeighbour?_eq_some {i i' : m.One}
    (h : leftNeighbour? ⟨m.ones.toArray, rfl⟩ i = some i') :
    i'.val + 1 = i.val ∧ m.rowOf i' = m.rowOf i := by
  unfold leftNeighbour? at h
  dsimp only at h
  split at h
  · next hcond =>
    obtain rfl := Option.some.inj h
    exact ⟨by have := hcond.1; simp only; omega, hcond.2⟩
  · cases h

theorem row_of_mem {q : Nat} {l : List m.One} (hl : ∀ i ∈ l, m.rowOf i = q)
    {p : Node m.width m.ones.length} (hp : p ∈ l.map m.node) : (ofMatrix m).row p = q := by
  obtain ⟨i, hi, rfl⟩ := List.mem_map.1 hp
  rw [row_nodeOf, hl i hi]

theorem rowOf_of_mem_below {t q : Nat} {i : m.One} (h : i ∈ below t (m.onesInRow q)) :
    m.rowOf i = q :=
  mem_onesInRow.1 (mem_below.1 h).1

theorem below_succ_of_row_ne {i : m.One} {q : Nat} (hq : q ≠ m.rowOf i) :
    below (i + 1) (m.onesInRow q) = below i (m.onesInRow q) :=
  below_succ_of_notMem (by simpa using hq.symm)

/-- The first 1 of a row stays alone. -/
theorem RowsLinked.leave {r : Rings (m.width + 1 + m.ones.length)} {i : m.One}
    (h : RowsLinked m i r) (hfirst : below i (m.onesInRow (m.rowOf i)) = []) :
    RowsLinked m (i + 1) r := by
  refine ⟨fun i' hi' => h.alone i' (by omega), fun q => ?_⟩
  by_cases hq : q = m.rowOf i
  · rw [hq, below_succ_of_mem (pairwise_onesInRow _) (by simp), hfirst]
    exact h.alone i le_rfl
  · rw [below_succ_of_row_ne hq]
    exact h.linked q

/-- Any further 1 of a row comes before the first one, which closes the list. -/
theorem RowsLinked.insert {r : Rings (m.width + 1 + m.ones.length)} {i first : m.One}
    {rest : List m.One} (h : RowsLinked m i r)
    (hfirst : below i (m.onesInRow (m.rowOf i)) = first :: rest) :
    RowsLinked m (i + 1) (r.insertBefore (nodeOf first) (nodeOf i)) := by
  have hring := h.linked (m.rowOf i)
  have hmem : m.node first ∈ (below i (m.onesInRow (m.rowOf i))).map m.node := by simp [hfirst]
  have hprev := hring.prev_mem hmem
  refine ⟨fun i' hi' => ?_, fun q => ?_⟩
  · -- What is still alone comes after all that is linked.
    have hoff : ∀ p ∈ (below i (m.onesInRow (m.rowOf i))).map m.node,
        p ∉ [m.node i'] := by
      intro p hp hp'
      obtain ⟨i₀, hi₀, rfl⟩ := List.mem_map.1 hp
      obtain rfl : i₀ = i' := by simpa using hp'
      have := (mem_below.1 hi₀).2
      omega
    refine (h.alone i' (by omega)).insertBefore_of_notMem (hoff _ hprev) (hoff _ hmem) ?_
    simp only [List.mem_singleton, nodeOf_inj]
    rintro rfl
    omega
  · by_cases hq : q = m.rowOf i
    · rw [hq, below_succ_of_mem (pairwise_onesInRow _) (by simp), List.map_append]
      have hnew : m.node i ∉ (below i (m.onesInRow (m.rowOf i))).map m.node := by simp [mem_below]
      rw [hfirst] at hring hnew ⊢
      exact hring.insertBefore hnew
    · rw [below_succ_of_row_ne hq]
      have hoff : ∀ p ∈ (below i (m.onesInRow (m.rowOf i))).map m.node,
          p ∉ (below i (m.onesInRow q)).map m.node := by
        intro p hp hp'
        have hrow := row_of_mem (fun i' => rowOf_of_mem_below) hp
        have hrow' := row_of_mem (fun i' => rowOf_of_mem_below) hp'
        exact hq (hrow'.symm.trans hrow)
      refine (h.linked q).insertBefore_of_notMem (hoff _ hprev) (hoff _ hmem) ?_
      simp [mem_below]

/-- A further 1 comes before the first one of its row, if it is not the first one
    itself. -/
theorem RowsLinked.appendRight_eq {r : Rings (m.width + 1 + m.ones.length)} {i : m.One}
    (h : RowsLinked m i r) :
    below i (m.onesInRow (m.rowOf i)) = [] ∧ appendRight ⟨m.ones.toArray, rfl⟩ r i = r ∨
    ∃ first rest, below i (m.onesInRow (m.rowOf i)) = first :: rest ∧
      appendRight ⟨m.ones.toArray, rfl⟩ r i = r.insertBefore (nodeOf first) (nodeOf i) := by
  unfold appendRight
  cases hleft : leftNeighbour? ⟨m.ones.toArray, rfl⟩ i with
  | none => exact .inl ⟨leftNeighbour?_eq_none hleft, rfl⟩
  | some i' =>
    right
    obtain ⟨hi', hrow⟩ := leftNeighbour?_eq_some hleft
    -- So far `i'` is the last 1 of the row, and its links lead on to the first one.
    have hlast : below i (m.onesInRow (m.rowOf i)) =
        below i' (m.onesInRow (m.rowOf i)) ++ [i'] := by
      rw [← hi']
      exact below_succ_of_mem (pairwise_onesInRow _) (by simpa using hrow)
    have hring := h.linked (m.rowOf i)
    rw [hlast, List.map_append] at hring
    have hnext := hring.next_last
    show ∃ first rest, _ ∧ r.insertBefore (r.next (nodeOf i')) (nodeOf i) = _
    cases hbelow : below i' (m.onesInRow (m.rowOf i)) with
    | nil =>
      rw [hbelow] at hlast hnext
      exact ⟨i', [], hlast, congrArg (r.insertBefore · (nodeOf i)) hnext⟩
    | cons first rest =>
      rw [hbelow] at hlast hnext
      exact ⟨first, rest ++ [i'], hlast, congrArg (r.insertBefore · (nodeOf i)) hnext⟩

theorem rowsLinked_appendRight {r : Rings (m.width + 1 + m.ones.length)} (i : m.One)
    (h : RowsLinked m i r) :
    RowsLinked m (i + 1) (appendRight ⟨m.ones.toArray, rfl⟩ r i) := by
  rcases h.appendRight_eq with ⟨hfirst, heq⟩ | ⟨first, rest, hfirst, heq⟩
  · rw [heq]
    exact h.leave hfirst
  · rw [heq]
    exact h.insert hfirst

/-- The list across the matrix through a 1 holds the 1s of its row. -/
theorem across_ofMatrix (m : BitMatrix) (i : m.One) :
    (ofMatrix m).across.IsRing (nodeOf i :: (m.restOfRow i).map m.node) := by
  have h : RowsLinked m m.ones.length (ofMatrix m).across :=
    foldl_invariant (RowsLinked m) rowsLinked_alone fun i _ => rowsLinked_appendRight i
  have hrow := h.linked (m.rowOf i)
  rw [below_all, onesInRow_eq_append, List.map_append, List.map_cons] at hrow
  have hrotate := hrow.rotate _ _
  rwa [List.cons_append, ← List.map_append] at hrotate

/-! ## What stays -/

/-- What no operation on the links changes is as in the matrix. -/
structure Fixed (L : LinkedMatrix m.width m.ones.length) : Prop where
  heads : L.heads = (ofMatrix m).heads
  across : L.across = (ofMatrix m).across
  columns : L.columns = (ofMatrix m).columns
  rows : L.rows = (ofMatrix m).rows
  height : L.height = (ofMatrix m).height

theorem fixed_ofMatrix (m : BitMatrix) : (ofMatrix m).Fixed :=
  ⟨rfl, rfl, rfl, rfl, rfl⟩

section

variable {L : LinkedMatrix m.width m.ones.length}

theorem Fixed.detach (hL : L.Fixed) (h : Header m.width) : (L.detach h).Fixed :=
  ⟨hL.heads, hL.across, hL.columns, hL.rows, hL.height⟩

theorem Fixed.attach (hL : L.Fixed) (h : Header m.width) : (L.attach h).Fixed :=
  ⟨hL.heads, hL.across, hL.columns, hL.rows, hL.height⟩

theorem Fixed.hide (hL : L.Fixed) (p : Node m.width m.ones.length) : (L.hide p).Fixed :=
  ⟨hL.heads, hL.across, hL.columns, hL.rows, hL.height⟩

theorem Fixed.unhide (hL : L.Fixed) (p : Node m.width m.ones.length) : (L.unhide p).Fixed :=
  ⟨hL.heads, hL.across, hL.columns, hL.rows, hL.height⟩

theorem Fixed.head (hL : L.Fixed) (h : Header m.width) : L.head h = sentinel h := by
  rw [← head_ofMatrix, LinkedMatrix.head, LinkedMatrix.head, hL.heads]

theorem Fixed.column_node (hL : L.Fixed) (i : m.One) :
    L.column (m.node i) = headerOf (m.columnOf i) := by
  rw [← column_nodeOf, column, column, hL.columns]

theorem Fixed.row_node (hL : L.Fixed) (i : m.One) : L.row (m.node i) = m.rowOf i := by
  rw [← row_nodeOf, row, row, hL.rows]

theorem Fixed.right_ring (hL : L.Fixed) (i : m.One) :
    L.across.IsRing (m.node i :: (m.restOfRow i).map m.node) := by
  rw [hL.across]
  exact across_ofMatrix m i

end

end LinkedMatrix

end ExactCover
