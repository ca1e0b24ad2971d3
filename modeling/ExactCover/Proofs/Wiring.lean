import ExactCover.Proofs.Linking
import ExactCover.Proofs.Reading

/-!
# Where each link leads

The links of a matrix in closed form. The nodes are numbered row by row and from left to
right, after one sentinel for each header; the links of a 1 lead to the next and the
previous 1 of its row, around the row, and to the next and the previous 1 of its column,
or to the sentinel of the column at either end. Nothing of the matrix is lost: matrices
with equal links are equal.

Results:
* `wired_iff`: the links of a matrix are those of the closed form, and no others.
* `links_injective`: the matrix can be told from its links.
* `ofRows_wired`: which rows are refused, how the others are linked, and which have
  equal links.
-/

namespace ExactCover

namespace Rings

variable {n : Nat} {r : Rings n} {start p : Fin n} {xs ys : List (Fin n)}

/-- The link back from the start of a list leads to its last position, or to the
    start. -/
theorem IsRing.prev_start (h : r.IsRing (start :: ys)) : r.prev start = ys.getLastD start := by
  have hnext := h.flip.next_start
  rwa [next_flip, List.headD_eq_head?_getD, List.head?_reverse,
    ← List.getLastD_eq_getLast?] at hnext

/-- The link back from a position of a list leads to the one before it, or to the
    start. -/
theorem IsRing.prev_of_append (h : r.IsRing (start :: (xs ++ p :: ys))) :
    r.prev p = xs.getLastD start := by
  have hflip : r.flip.IsRing (start :: (ys.reverse ++ p :: xs.reverse)) := by
    simpa using h.flip
  have hnext := hflip.next_of_append
  rwa [next_flip, List.headD_eq_head?_getD, List.head?_reverse,
    ← List.getLastD_eq_getLast?] at hnext

end Rings

namespace BitMatrix

variable {m : BitMatrix}

/-- The 1s below `i` in its column, from top to bottom. -/
def onesBelow (m : BitMatrix) (i : m.One) : List m.One :=
  (m.onesInColumn (m.columnOf i)).filter (i < ·)

/-- The 1s above `i` in its column, from top to bottom. -/
def onesAbove (m : BitMatrix) (i : m.One) : List m.One :=
  (m.onesInColumn (m.columnOf i)).filter (· < i)

theorem onesInColumn_eq_append (i : m.One) :
    m.onesInColumn (m.columnOf i) = m.onesAbove i ++ i :: m.onesBelow i :=
  eq_filter_append (pairwise_onesInColumn _) (by simp)

/-- The positions of the nodes: the sentinels stand where their headers do, and after
    them the 1s follow row by row and from left to right. -/
structure RowMajor (m : BitMatrix) : Prop where
  sentinel (h : Header m.width) : (sentinel h : Node m.width m.ones.length).val = h.val
  node (i : m.One) : (m.node i).val = m.width + 1 + i.val
  order (i i' : m.One) :
    i < i' ↔ m.rowOf i < m.rowOf i' ∨ m.rowOf i = m.rowOf i' ∧ m.columnOf i < m.columnOf i'
  one (r : Nat) (j : Fin m.width) : m.entry r j = true ↔ ∃! i, m.rowOf i = r ∧ m.columnOf i = j

theorem rowMajor (m : BitMatrix) : m.RowMajor where
  sentinel h := rfl
  node i := rfl
  order i i' := by
    refine ⟨lt_of_one_lt, fun h => ?_⟩
    rcases lt_trichotomy i i' with hlt | rfl | hlt
    · exact hlt
    · exact absurd h (by simp)
    · have h' := lt_of_one_lt hlt
      simp only [Fin.lt_def] at h h'
      omega
  one r j := by
    constructor
    · intro hentry
      obtain ⟨i, hrow, hcolumn⟩ := exists_one hentry
      exact ⟨i, ⟨hrow, hcolumn⟩, fun i' hi' =>
        one_ext (hi'.1.trans hrow.symm) (hi'.2.trans hcolumn.symm)⟩
    · rintro ⟨i, ⟨rfl, rfl⟩, -⟩
      exact entry_of_one i

end BitMatrix

namespace LinkedMatrix

open BitMatrix

variable {m : BitMatrix}

/-! ## What the nodes of 1s leave alone -/

/-- Every 1 goes into the list of a matrix column, so the sentinel of the root stays
    alone. -/
theorem vertical_root (m : BitMatrix) : (ofMatrix m).vertical.IsRing [sentinel root] := by
  refine (foldl_invariant (fun t r => ColumnsLinked m t r ∧ r.IsRing [sentinel root])
    ⟨columnsLinked_alone, Rings.isRing_singleton_iff.2 ⟨Rings.next_alone _, Rings.prev_alone _⟩⟩
    fun i r h => ⟨columnsLinked_appendDown i h.1, ?_⟩).2
  have hoff : ∀ p ∈ sentinel (headerOf (m.columnOf i)) ::
      (below i (m.onesInColumn (m.columnOf i))).map m.node, p ∉ [sentinel root] := by
    intro p hp hroot
    obtain rfl : p = sentinel root := by simpa using hroot
    rcases List.mem_cons.1 hp with heq | hnode
    · exact headerOf_ne_root _ (sentinel_injective heq).symm
    · simp at hnode
  show (appendDown (ofMatrix m).heads _ r i).IsRing _
  rw [appendDown_eq]
  exact h.2.insertBefore_of_notMem (hoff _ ((h.1 _).prev_mem List.mem_cons_self))
    (hoff _ List.mem_cons_self) (by simp)

/-- No sentinel is in a list across the matrix. -/
theorem across_sentinel (m : BitMatrix) (h : Header m.width) :
    (ofMatrix m).across.IsRing [sentinel h] := by
  refine (foldl_invariant (fun t r => RowsLinked m t r ∧ r.IsRing [sentinel h])
    ⟨rowsLinked_alone, Rings.isRing_singleton_iff.2 ⟨Rings.next_alone _, Rings.prev_alone _⟩⟩
    fun i r hr => ⟨rowsLinked_appendRight i hr.1, ?_⟩).2
  rcases hr.1.appendRight_eq with ⟨-, heq⟩ | ⟨first, rest, hfirst, heq⟩
  · rw [heq]
    exact hr.2
  · rw [heq]
    have hmem : m.node first ∈ (below i (m.onesInRow (m.rowOf i))).map m.node := by simp [hfirst]
    have hoff : ∀ p ∈ (below i (m.onesInRow (m.rowOf i))).map m.node, p ∉ [sentinel h] := by
      intro p hp
      obtain ⟨i', -, rfl⟩ := List.mem_map.1 hp
      simp
    exact hr.2.insertBefore_of_notMem (hoff _ ((hr.1.linked _).prev_mem hmem)) (hoff _ hmem)
      (by simp)

theorem size_root (m : BitMatrix) : (ofMatrix m).size root = 0 := by
  refine foldl_invariant (fun _ sizes => Table.read sizes root = 0) ?_ fun i sizes h => ?_
  · simp [Table.read]
  · exact (Table.read_write ..).trans ((if_neg (headerOf_ne_root _).symm).trans h)

theorem row_sentinel (h : Header m.width) : (ofMatrix m).row (sentinel h) = sentinelRow := by
  refine (read_append_sentinel _ _ h).trans ?_
  simp [Table.read]

/-! ## The closed form -/

/-- Every field of the links of a matrix. Headers are counted around the horizontal
    list. The other 1s of the row of `i` are listed around the row, from the one to the
    right of `i` to the one to its left; if there are none, `i` is linked to itself. -/
structure Wired (m : BitMatrix) (L : LinkedMatrix m.width m.ones.length) : Prop where
  height : L.height = m.height
  head (h : Header m.width) : L.head h = sentinel h
  next (h : Header m.width) : L.horizontal.next h = h + 1
  prev (h : Header m.width) : L.horizontal.prev h = h - 1
  size_root : L.size root = 0
  size (j : Fin m.width) : L.size (headerOf j) = (List.range m.height).countP (m.entry · j)
  column_sentinel (h : Header m.width) : L.column (sentinel h) = h
  row_sentinel (h : Header m.width) : L.row (sentinel h) = sentinelRow
  right_sentinel (h : Header m.width) : L.right (sentinel h) = sentinel h
  left_sentinel (h : Header m.width) : L.left (sentinel h) = sentinel h
  down_root : L.down (sentinel root) = sentinel root
  up_root : L.up (sentinel root) = sentinel root
  down_sentinel (j : Fin m.width) :
    L.down (sentinel (headerOf j)) = ((m.onesInColumn j).map m.node).headD (sentinel (headerOf j))
  up_sentinel (j : Fin m.width) :
    L.up (sentinel (headerOf j)) = ((m.onesInColumn j).map m.node).getLastD (sentinel (headerOf j))
  row (i : m.One) : L.row (m.node i) = m.rowOf i
  column (i : m.One) : L.column (m.node i) = headerOf (m.columnOf i)
  right (i : m.One) : L.right (m.node i) = ((m.restOfRow i).map m.node).headD (m.node i)
  left (i : m.One) : L.left (m.node i) = ((m.restOfRow i).map m.node).getLastD (m.node i)
  down (i : m.One) :
    L.down (m.node i) = ((m.onesBelow i).map m.node).headD (sentinel (headerOf (m.columnOf i)))
  up (i : m.One) :
    L.up (m.node i) = ((m.onesAbove i).map m.node).getLastD (sentinel (headerOf (m.columnOf i)))

/-- The vertical list through a 1, with what is above it and what is below. -/
theorem vertical_through (i : m.One) :
    (ofMatrix m).vertical.IsRing (sentinel (headerOf (m.columnOf i)) ::
      ((m.onesAbove i).map m.node ++ m.node i :: (m.onesBelow i).map m.node)) := by
  have h := vertical_ofMatrix m (m.columnOf i)
  rwa [onesInColumn_eq_append, List.map_append, List.map_cons] at h

theorem wired_ofMatrix (m : BitMatrix) : Wired m (ofMatrix m) where
  height := rfl
  head := head_ofMatrix
  next := Rings.next_cycle
  prev := Rings.prev_cycle
  size_root := LinkedMatrix.size_root m
  size j := by
    rw [size_ofMatrix, List.countP_eq_length_filter, ← map_rowOf_onesInColumn, List.length_map]
  column_sentinel := LinkedMatrix.column_sentinel
  row_sentinel := LinkedMatrix.row_sentinel
  right_sentinel h := (across_sentinel m h).next_start
  left_sentinel h := (across_sentinel m h).prev_start
  down_root := (vertical_root m).next_start
  up_root := (vertical_root m).prev_start
  down_sentinel j := (vertical_ofMatrix m j).next_start
  up_sentinel j := (vertical_ofMatrix m j).prev_start
  row := row_nodeOf
  column := column_nodeOf
  right i := (across_ofMatrix m i).next_start
  left i := (across_ofMatrix m i).prev_start
  down i := (vertical_through i).next_of_append
  up i := (vertical_through i).prev_of_append

/-- Every node is a sentinel or the node of a 1. -/
theorem forall_node {c k : Nat} {P : Node c k → Prop} (hsentinel : ∀ h, P (sentinel h))
    (hnode : ∀ i, P (nodeOf i)) (p : Node c k) : P p :=
  Fin.addCases hsentinel hnode p

/-- Every header is the root or the header of a matrix column. -/
theorem forall_header {c : Nat} {P : Header c → Prop} (hroot : P root)
    (hcolumn : ∀ j, P (headerOf j)) (h : Header c) : P h :=
  Fin.cases hroot hcolumn h

/-- The closed form says all there is to say about the links. -/
theorem Wired.eq {L L' : LinkedMatrix m.width m.ones.length} (h : Wired m L) (h' : Wired m L') :
    L = L' := by
  have hup : ∀ p, L.up p = L'.up p :=
    forall_node (forall_header (h.up_root.trans h'.up_root.symm)
      fun j => (h.up_sentinel j).trans (h'.up_sentinel j).symm)
      fun i => (h.up i).trans (h'.up i).symm
  have hdown : ∀ p, L.down p = L'.down p :=
    forall_node (forall_header (h.down_root.trans h'.down_root.symm)
      fun j => (h.down_sentinel j).trans (h'.down_sentinel j).symm)
      fun i => (h.down i).trans (h'.down i).symm
  have hleft : ∀ p, L.left p = L'.left p :=
    forall_node (fun a => (h.left_sentinel a).trans (h'.left_sentinel a).symm)
      fun i => (h.left i).trans (h'.left i).symm
  have hright : ∀ p, L.right p = L'.right p :=
    forall_node (fun a => (h.right_sentinel a).trans (h'.right_sentinel a).symm)
      fun i => (h.right i).trans (h'.right i).symm
  have hcolumn : ∀ p, L.column p = L'.column p :=
    forall_node (fun a => (h.column_sentinel a).trans (h'.column_sentinel a).symm)
      fun i => (h.column i).trans (h'.column i).symm
  have hrow : ∀ p, L.row p = L'.row p :=
    forall_node (fun a => (h.row_sentinel a).trans (h'.row_sentinel a).symm)
      fun i => (h.row i).trans (h'.row i).symm
  have hhead : ∀ a, L.head a = L'.head a := fun a => (h.head a).trans (h'.head a).symm
  refine ext_tables (Table.ext_read hhead) (Rings.ext_links (fun a => ?_) fun a => ?_) ?_
    (Rings.ext_links hup hdown) (Rings.ext_links hleft hright) (Table.ext_read hcolumn)
    (Table.ext_read hrow) (h.height.trans h'.height.symm)
  · rw [h.prev, h'.prev]
  · rw [h.next, h'.next]
  · exact forall_header (h.size_root.trans h'.size_root.symm)
      fun j => (h.size j).trans (h'.size j).symm

/-- **The links of a matrix.** They are those of the closed form, and no others. -/
theorem wired_iff {L : LinkedMatrix m.width m.ones.length} : Wired m L ↔ L = ofMatrix m :=
  ⟨fun h => h.eq (wired_ofMatrix m), fun h => h ▸ wired_ofMatrix m⟩

end LinkedMatrix

/-! ## Equal links -/

/-- Links of any size: the number of matrix columns, the number of 1s, and the links
    themselves. -/
abbrev SizedLinks :=
  (c : Nat) × (k : Nat) × LinkedMatrix c k

namespace SizedLinks

/-- The number of rows. -/
def height (L : SizedLinks) : Nat :=
  L.2.2.height

/-- Some node is that of a 1 in row `r` and column `j`. -/
def HasOneAt (L : SizedLinks) (r j : Nat) : Prop :=
  ∃ i : Fin L.2.1, L.2.2.row (nodeOf i) = r ∧ (L.2.2.column (nodeOf i)).val = j + 1

end SizedLinks

namespace BitMatrix

variable {m m' : BitMatrix}

/-- The links of a matrix, together with their size. -/
def links (m : BitMatrix) : SizedLinks :=
  ⟨m.width, m.ones.length, LinkedMatrix.ofMatrix m⟩

theorem hasOneAt_links {r : Nat} {j : Fin m.width} :
    m.links.HasOneAt r j ↔ m.entry r j = true := by
  constructor
  · rintro ⟨i, hrow, hcolumn⟩
    obtain rfl : m.rowOf i = r := (LinkedMatrix.row_nodeOf i).symm.trans hrow
    have hval : (headerOf (m.columnOf i)).val = j + 1 :=
      (congrArg Fin.val (LinkedMatrix.column_nodeOf i)).symm.trans hcolumn
    obtain rfl : m.columnOf i = j := Fin.ext (Nat.succ.inj hval)
    exact entry_of_one i
  · intro hentry
    obtain ⟨i, rfl, rfl⟩ := exists_one hentry
    exact ⟨i, LinkedMatrix.row_nodeOf i, congrArg Fin.val (LinkedMatrix.column_nodeOf i)⟩

/-- The matrix can be told from its links. -/
theorem links_injective : Function.Injective links := by
  intro m m' h
  have hheight : m.links.height = m'.links.height := congrArg SizedLinks.height h
  refine ext_entry hheight (congrArg Sigma.fst h) fun r j hj hj' => ?_
  rw [Bool.eq_iff_iff, ← hasOneAt_links, ← hasOneAt_links, h]

end BitMatrix

open BitMatrix LinkedMatrix

/-- **Rows are linked as they stand.** No rows are refused as such, and otherwise
    exactly the first row of another width than row 0 is; the rows are read as a matrix
    in all other cases. Its nodes are numbered row by row, and its links are those of
    the closed form and no others. Two lists of rows that are read have equal links if
    and only if they have the same shape and the same 1s. -/
theorem ofRows_wired :
    (∀ {α : Type} [Entry α] (rows : List (List α)),
      (ofRows rows = .error .noRows ↔ rows = []) ∧
      (∀ i expected found, ofRows rows = .error (.raggedRow i expected found) ↔
        FirstRagged (rows.map List.length) i expected found) ∧
      ((∃ m, ofRows rows = .ok m) ↔
        rows ≠ [] ∧ ¬ ∃ i expected found, FirstRagged (rows.map List.length) i expected found)) ∧
    (∀ {α : Type} [Entry α] {rows : List (List α)} {m : BitMatrix}, ofRows rows = .ok m →
      m.height = rows.length ∧ (∀ row ∈ rows, row.length = m.width) ∧
      (∀ r (j : Fin m.width), m.entry r j = isOneAt rows r j) ∧
      m.RowMajor ∧ ∀ L, Wired m L ↔ L = ofMatrix m) ∧
    (∀ {α β : Type} [Entry α] [Entry β] {rows : List (List α)} {rows' : List (List β)}
      {m m' : BitMatrix}, ofRows rows = .ok m → ofRows rows' = .ok m' →
        (m.links = m'.links ↔ Alike rows rows')) := by
  refine ⟨fun rows => ⟨ofRows_eq_noRows_iff, fun i expected found => ofRows_eq_raggedRow_iff,
    exists_ofRows_iff⟩, fun {α _ rows m} hm => ?_, fun {α β _ _ rows rows' m m'} hm hm' => ?_⟩
  · obtain ⟨hheight, hentry⟩ := entry_of_ofRows hm
    exact ⟨hheight, (width_of_ofRows hm).2, hentry, m.rowMajor, fun L => wired_iff⟩
  · exact links_injective.eq_iff.trans (eq_iff_of_ofRows hm hm')

/-- Rows that are refused, for each reason, and rows with other entries that are linked
    alike. -/
theorem ofRows_wired_samples :
    ofRows ([] : List (List Nat)) = .error .noRows ∧
    ofRows [[1, 0], [1, 1], [0], []] = .error (.raggedRow 2 2 1) ∧
    ∃ m m', ofRows [[true, false], [true, true]] = .ok m ∧ ofRows [[3, 0], [1, 2]] = .ok m' ∧
      Wired m (ofMatrix m) ∧ m.links = m'.links := by
  have hm : ofRows [[true, false], [true, true]] =
      .ok ⟨2, [#v[true, false], #v[true, true]], List.cons_ne_nil _ _⟩ := rfl
  have hm' : ofRows [[3, 0], [1, 2]] =
      .ok ⟨2, [#v[true, false], #v[true, true]], List.cons_ne_nil _ _⟩ := rfl
  have halike : Alike [[true, false], [true, true]] [[3, 0], [1, 2]] := by
    refine ⟨rfl, fun r j => ?_⟩
    match r, j with
    | 0, 0 | 0, 1 | 0, _ + 2 | 1, 0 | 1, 1 | 1, _ + 2 | _ + 2, _ => rfl
  refine ⟨(ofRows_wired.1 _).1.2 rfl,
    ((ofRows_wired.1 _).2.1 2 2 1).2 ⟨rfl, rfl, by decide, by decide⟩,
    _, _, hm, hm', ((ofRows_wired.2.1 hm).2.2.2.2 _).2 rfl, (ofRows_wired.2.2 hm hm').2 halike⟩

end ExactCover
