import ExactCover.BitMatrix
import ExactCover.Rings

/-!
# The linked form of a matrix

A 0/1 matrix is kept as circular lists. Each column has a *header*, and the headers of
the columns still to be covered form the *horizontal* list with the *root*. Each 1 is a
*node*; the nodes of a column form its *vertical* list with the *sentinel* of the
column, and the nodes of a row form a list of their own, *across* the matrix.

Headers are numbered from the root, at 0, so column `j` has header `j + 1`. The sentinel
of a header stands at the position of the header among the nodes; the 1s follow the
sentinels, row by row and from left to right. With `c` columns and `k` 1s there are
`c + 1` headers and `c + 1 + k` nodes, and as every link is a `Fin` of that size, no
link can lead out of its table.

The lists are read by walks along their links. A walk checks that it comes back to where
it began; the other checks on the links are named by `Fault`.

Results:
* `unhide_hide`: a node whose neighbours point at it can be hidden and put back.
* `walkOn_eq_foldlM`: if no visit changes the way, a walk is a fold over the list it
  follows.
-/

namespace ExactCover

/-! ## Positions -/

/-- The positions of the headers for `c` columns (`ColumnIndex`): the root, then the
    columns. -/
abbrev Header (c : Nat) := Fin (c + 1)

/-- The positions of the nodes for `c` columns and `k` 1s (`NodeIndex`): the sentinels,
    then the 1s. -/
abbrev Node (c k : Nat) := Fin (c + 1 + k)

section

variable {c k : Nat}

/-- The header that every walk along the horizontal list starts from (`ROOT`). -/
def root : Header c := ⟨0, Nat.zero_lt_succ c⟩

/-- The header of a matrix column (`of_column`). -/
def headerOf (j : Fin c) : Header c := j.succ

/-- The node that anchors the vertical list of a header (`head_of`). -/
def sentinel (h : Header c) : Node c k := Fin.castAdd k h

/-- The node of a 1, given by its rank among the 1s. -/
def nodeOf (i : Fin k) : Node c k := Fin.natAdd (c + 1) i

end

/-- The row that is recorded with the sentinels (`SENTINEL_ROW`), the greatest machine
    word. No row of a matrix has this position, because a matrix holds fewer rows. -/
def sentinelRow : Nat := UInt64.size - 1

/-! ## The links -/

/-- The linked form of a matrix with `c` columns and `k` 1s (`Links`). The fields of its
    headers and of its nodes are tables, one for each field. -/
structure LinkedMatrix (c k : Nat) where
  /-- For each header, the sentinel that anchors its vertical list. -/
  heads : Table (c + 1) (Node c k)
  /-- The list of the root and of the columns still to be covered. -/
  horizontal : Rings (c + 1)
  /-- For each header, the number of 1s in its vertical list. -/
  sizes : Table (c + 1) Nat
  /-- The lists of the nodes of each column, from top to bottom. -/
  vertical : Rings (c + 1 + k)
  /-- The lists of the nodes of each row, from left to right. -/
  across : Rings (c + 1 + k)
  /-- For each node, the header of its column. -/
  columns : Table (c + 1 + k) (Header c)
  /-- For each node, the position of its row; it means nothing for a sentinel. -/
  rows : Table (c + 1 + k) Nat
  /-- The number of rows of the matrix, those without 1s included. -/
  height : Nat
deriving DecidableEq

namespace LinkedMatrix

variable {c k : Nat}

/-- The sentinel of a header. -/
def head (L : LinkedMatrix c k) (h : Header c) : Node c k := L.heads.read h

/-- The number of 1s in the vertical list of `h`. -/
def size (L : LinkedMatrix c k) (h : Header c) : Nat := L.sizes.read h

/-- The header of the column of a node. -/
def column (L : LinkedMatrix c k) (p : Node c k) : Header c := L.columns.read p

/-- The position of the row of a node. -/
def row (L : LinkedMatrix c k) (p : Node c k) : Nat := L.rows.read p

/-- The node above `p` in its column. -/
def up (L : LinkedMatrix c k) (p : Node c k) : Node c k := L.vertical.prev p

/-- The node below `p` in its column. -/
def down (L : LinkedMatrix c k) (p : Node c k) : Node c k := L.vertical.next p

/-- The node to the left of `p` in its row. -/
def left (L : LinkedMatrix c k) (p : Node c k) : Node c k := L.across.prev p

/-- The node to the right of `p` in its row. -/
def right (L : LinkedMatrix c k) (p : Node c k) : Node c k := L.across.next p

/-- Takes a header out of the horizontal list: the first two writes of `cover`. -/
def detach (L : LinkedMatrix c k) (h : Header c) : LinkedMatrix c k :=
  { L with horizontal := L.horizontal.remove h }

/-- Puts a header back into the horizontal list: the last two writes of `uncover`. -/
def attach (L : LinkedMatrix c k) (h : Header c) : LinkedMatrix c k :=
  { L with horizontal := L.horizontal.restore h }

/-- Takes a node out of the vertical list of its column. -/
def hide (L : LinkedMatrix c k) (p : Node c k) : LinkedMatrix c k :=
  let h := L.column p
  { L with vertical := L.vertical.remove p, sizes := L.sizes.write h (L.size h - 1) }

/-- Puts a node back into the vertical list of its column. -/
def unhide (L : LinkedMatrix c k) (p : Node c k) : LinkedMatrix c k :=
  let h := L.column p
  { L with vertical := L.vertical.restore p, sizes := L.sizes.write h (L.size h + 1) }

@[ext] theorem ext_tables {L M : LinkedMatrix c k} (heads : L.heads = M.heads)
    (horizontal : L.horizontal = M.horizontal) (size : ∀ h, L.size h = M.size h)
    (vertical : L.vertical = M.vertical) (across : L.across = M.across)
    (columns : L.columns = M.columns) (rows : L.rows = M.rows) (height : L.height = M.height) :
    L = M := by
  cases L
  cases M
  congr
  exact Table.ext_read size

theorem size_hide (L : LinkedMatrix c k) (p : Node c k) (h : Header c) :
    (L.hide p).size h = if h = L.column p then L.size h - 1 else L.size h := by
  refine (Table.read_write ..).trans ?_
  split
  · next hh => rw [hh]
  · rfl

theorem size_unhide (L : LinkedMatrix c k) (p : Node c k) (h : Header c) :
    (L.unhide p).size h = if h = L.column p then L.size h + 1 else L.size h := by
  refine (Table.read_write ..).trans ?_
  split
  · next hh => rw [hh]
  · rfl

/-- Hiding is undone by putting the node back, if both neighbours of the node point at
    it and its column is not counted as empty. -/
theorem unhide_hide {L : LinkedMatrix c k} {p : Node c k} (hup : L.down (L.up p) = p)
    (hdown : L.up (L.down p) = p) (hp : L.down p ≠ p) (hsize : 0 < L.size (L.column p)) :
    (L.hide p).unhide p = L := by
  refine ext_tables rfl rfl (fun h => ?_) (Rings.restore_remove hup hdown hp) rfl rfl rfl rfl
  have hcolumn : (L.hide p).column p = L.column p := rfl
  rw [size_unhide, size_hide, hcolumn]
  split
  · next hh => rw [hh]; omega
  · rfl

/-! ## Linking a matrix

The 1s of a matrix are linked one by one, row by row and from left to right
(`append_row`): each goes to the bottom of the vertical list of its column, and to the
right end of the list of its row. A row without 1s adds nothing. -/

/-- Puts the `i`th 1 at the bottom of its column, below the 1s before it. -/
def appendDown (heads : Table (c + 1) (Node c k)) (ones : Table k (Nat × Fin c))
    (r : Rings (c + 1 + k)) (i : Fin k) : Rings (c + 1 + k) :=
  r.insertBefore (heads.read (headerOf (ones.read i).2)) (nodeOf i)

/-- The 1 before the `i`th, if it lies in the same row. -/
def leftNeighbour? (ones : Table k (Nat × Fin c)) (i : Fin k) : Option (Fin k) :=
  let j : Fin k := ⟨i.val - 1, Nat.lt_of_le_of_lt (Nat.sub_le ..) i.isLt⟩
  if i.val ≠ 0 ∧ (ones.read j).1 = (ones.read i).1 then some j else none

/-- Puts the `i`th 1 at the right end of its row, after the 1s before it; the first one
    of a row stays alone. -/
def appendRight (ones : Table k (Nat × Fin c)) (r : Rings (c + 1 + k)) (i : Fin k) :
    Rings (c + 1 + k) :=
  match leftNeighbour? ones i with
  | none => r
  | some j => r.insertBefore (r.next (nodeOf j)) (nodeOf i)

/-- Counts the `i`th 1 in its column. -/
def countDown (ones : Table k (Nat × Fin c)) (sizes : Table (c + 1) Nat) (i : Fin k) :
    Table (c + 1) Nat :=
  let h := headerOf (ones.read i).2
  sizes.write h (sizes.read h + 1)

/-- The links of the 1s at the given positions (row, column), in a matrix with `height`
    rows. All columns start out in the horizontal list, in the order of the matrix. -/
def ofOnes (height : Nat) (ones : Table k (Nat × Fin c)) : LinkedMatrix c k :=
  let heads := .ofFn sentinel
  { heads := heads
    horizontal := .cycle c
    sizes := Fin.foldl k (countDown ones) (Vector.replicate (c + 1) 0)
    vertical := Fin.foldl k (appendDown heads ones) (.alone (c + 1 + k))
    across := Fin.foldl k (appendRight ones) (.alone (c + 1 + k))
    columns := Vector.append (.ofFn fun h => h) (Vector.map (fun one => headerOf one.2) ones)
    rows := Vector.append (.replicate (c + 1) sentinelRow) (Vector.map (fun one => one.1) ones)
    height := height }

/-- The linked form of a matrix, which `from_rows` builds of rows that it accepts. -/
def ofMatrix (m : BitMatrix) : LinkedMatrix m.width m.ones.length :=
  ofOnes m.height ⟨m.ones.toArray, rfl⟩

end LinkedMatrix

/-! ## Faults -/

/-- What an operation on the links finds wrong with them. Headers are named by their
    position: the root is at 0 and the matrix columns follow it. -/
inductive Fault where
  /-- The column to be covered is not in the horizontal list. -/
  | alreadyCovered (header : Nat)
  /-- The neighbours of the column to be uncovered do not stand next to each other. -/
  | notDetached (header : Nat)
  /-- A node is taken out of a vertical list that is counted as empty. -/
  | alreadyEmpty (header : Nat)
  /-- The vertical list of the chosen column has nodes but is counted as empty. -/
  | miscounted (header : Nat)
  /-- A list does not lead back to where the walk along it began. -/
  | unclosedList
  /-- The search did not end within the number of steps that suffices for sound
      links. -/
  | endlessSearch
deriving DecidableEq, Repr

/-- The wording of a fault; for the first four, that of the assertion which fails. -/
def Fault.message : Fault → String
  | .alreadyCovered header => s!"column ColumnIndex({header}) is already covered"
  | .notDetached header =>
    s!"column ColumnIndex({header}) is not detached from the horizontal list"
  | .alreadyEmpty header => s!"vertical list of ColumnIndex({header}) is already empty"
  | .miscounted header => s!"nonempty vertical list of ColumnIndex({header}) has size 0"
  | .unclosedList => "a list does not return to its start"
  | .endlessSearch => "the search does not end"

/-! ## Walks

A walk visits the positions of a circular list one after another, from the one after its
start until it is back at the start. The visits may change the links: the way on is
looked up after the visit. A list over `n` positions returns to its start after fewer
than `n` visits or never, so `n` of them are allowed and a walk that is still under way
then fails. -/

section

variable {n : Nat} {σ : Type}

/-- Goes on with a walk at `p`, for at most `fuel` more visits. -/
@[specialize] def walkOn (next : σ → Fin n → Fin n) (visit : σ → Fin n → Except Fault σ)
    (start : Fin n) : (fuel : Nat) → (p : Fin n) → σ → Except Fault σ
  | 0, p, s => if p = start then .ok s else .error .unclosedList
  | fuel + 1, p, s =>
    if p = start then .ok s
    else do
      let s ← visit s p
      walkOn next visit start fuel (next s p) s

/-- Visits every other position of the list through `start`, beginning after `start`, as
    the loops of `cover`, `uncover`, `cover_rest_of_row` and `uncover_rest_of_row`
    do. -/
@[inline] def walk (next : σ → Fin n → Fin n) (visit : σ → Fin n → Except Fault σ)
    (start : Fin n) (s : σ) : Except Fault σ :=
  walkOn next visit start n (next s start) s

/-- The other positions of the list through `start`, beginning after `start`. -/
def listFrom (next : Fin n → Fin n) (start : Fin n) : Except Fault (List (Fin n)) := do
  let visited ← walk (fun _ => next) (fun visited p => .ok (p :: visited)) start []
  return visited.reverse

/-- The links lead from `p` through exactly the positions of the list to `start`. -/
inductive Leads (next : Fin n → Fin n) (start : Fin n) : Fin n → List (Fin n) → Prop
  | home : Leads next start start []
  | step {p : Fin n} {ps : List (Fin n)} : p ≠ start → Leads next start (next p) ps →
      Leads next start p (p :: ps)

theorem walkOn_eq_foldlM {next : σ → Fin n → Fin n} {visit : σ → Fin n → Except Fault σ}
    {start : Fin n} {way : Fin n → Fin n} {sound : σ → Prop} :
    ∀ {ps : List (Fin n)} {p : Fin n} {s : σ} {fuel : Nat}, Leads way start p ps →
      ps.length ≤ fuel → sound s →
      (∀ s, sound s → ∀ p ∈ ps, ∀ s', visit s p = .ok s' → sound s' ∧ next s' p = way p) →
      walkOn next visit start fuel p s = ps.foldlM visit s := by
  intro ps
  induction ps with
  | nil => intro p s fuel h _ _ _; cases h; cases fuel <;> simp [walkOn, pure, Except.pure]
  | cons q qs ih =>
    intro p s fuel h hlen hs hvisit
    cases h with
    | step hne hqs =>
      cases fuel with
      | zero => simp at hlen
      | succ fuel =>
        rw [walkOn, if_neg hne, List.foldlM_cons]
        cases hv : visit s q with
        | error e => rfl
        | ok s' =>
          obtain ⟨hs', hway⟩ := hvisit s hs q (by simp) s' hv
          show walkOn next visit start fuel (next s' q) s' = qs.foldlM visit s'
          rw [hway]
          exact ih hqs (by simpa using hlen) hs' fun s hs p hp => hvisit s hs p (by simp [hp])

end

/-! ## What the links hold -/

namespace LinkedMatrix

variable {c k : Nat}

/-- The headers in the horizontal list, from left to right (`active_columns`). -/
def activeColumns (L : LinkedMatrix c k) : Except Fault (List (Header c)) :=
  listFrom L.horizontal.next root

/-- The headers in the horizontal list, from right to left. -/
def activeColumnsBackward (L : LinkedMatrix c k) : Except Fault (List (Header c)) :=
  listFrom L.horizontal.prev root

/-- The nodes in the vertical list of a header, from top to bottom. -/
def nodesDown (L : LinkedMatrix c k) (h : Header c) : Except Fault (List (Node c k)) :=
  listFrom L.down (L.head h)

/-- The nodes in the vertical list of a header, from bottom to top. -/
def nodesUp (L : LinkedMatrix c k) (h : Header c) : Except Fault (List (Node c k)) :=
  listFrom L.up (L.head h)

/-- The positions of the rows in the vertical list of a header, from top to bottom
    (`column_rows`). -/
def rowsDown (L : LinkedMatrix c k) (h : Header c) : Except Fault (List Nat) :=
  return (← L.nodesDown h).map L.row

/-- The positions of the rows in the vertical list of a header, from bottom to top. -/
def rowsUp (L : LinkedMatrix c k) (h : Header c) : Except Fault (List Nat) :=
  return (← L.nodesUp h).map L.row

/-- The nodes of the row of `p` in cyclic order to the right, beginning with `p`; their
    columns are those of `row_columns`. -/
def nodesRight (L : LinkedMatrix c k) (p : Node c k) : Except Fault (List (Node c k)) :=
  return p :: (← listFrom L.right p)

/-- The nodes of the row of `p` in cyclic order to the left, beginning with `p`. -/
def nodesLeft (L : LinkedMatrix c k) (p : Node c k) : Except Fault (List (Node c k)) :=
  return p :: (← listFrom L.left p)

/-- The node of the 1 in the given row and column, if there is one. -/
def node? (L : LinkedMatrix c k) (row : Nat) (h : Header c) : Option (Node c k) :=
  ((List.finRange k).map nodeOf).find? fun p => L.row p = row ∧ L.column p = h

/-! ## The column to branch on

The search covers next the column with the fewest rows left, which keeps its tree small.
Of several such columns the leftmost is taken. A column without rows cannot be undercut,
so the scan ends there. -/

/-- Goes on with the scan at `h`, after the best column so far, for at most `fuel` more
    columns. -/
def shortestFrom (L : LinkedMatrix c k) :
    (fuel : Nat) → (h : Header c) → (best : Option (Header c)) → Except Fault (Option (Header c))
  | 0, h, best => if h = root then .ok best else .error .unclosedList
  | fuel + 1, h, best =>
    if h = root then .ok best
    else if L.size h = 0 then .ok (some h)
    else
      let best := if best.all (L.size h < L.size ·) then some h else best
      shortestFrom L fuel (L.horizontal.next h) best

/-- The leftmost of the columns in the horizontal list with the fewest 1s; none if the
    list is empty (`choose_column`). -/
def shortest? (L : LinkedMatrix c k) : Except Fault (Option (Header c)) :=
  L.shortestFrom (c + 1) (L.horizontal.next root) none

end LinkedMatrix

end ExactCover
