import ExactCover.LinkedMatrix

/-!
# The search

To cover a column is to take it out of the horizontal list, and to hide the rows that
meet it from all other vertical lists: they can no longer be chosen. The vertical list
of the covered column itself stays as it is, so that its rows are found again when the
column is uncovered. Uncovering undoes a covering step by step in the opposite order. It
is right only if all that happened since has been undone before, which is up to the
caller; `cover` and `uncover` check no more than the links of the column to its
neighbours.

The search for exact covers is Knuth's Algorithm X with an explicit trail in place of
the recursion. It chooses a column that is not yet covered, tries its rows one after
another, and goes on with the columns that remain. Where no column remains the chosen
rows are an exact cover, which is shown to a visitor; where a column has no row left,
the last choice is reconsidered. The search is a machine that takes one step at a time:
it *descends* to choose a row for another column, or *backtracks* to replace the last
choice by the next row of the same column. The visitor is a function on an accumulator,
and may end the search by answering `done`. Then all that is still covered is uncovered.

Columns can also be covered and uncovered by a caller: `Search.performAll` makes calls
in any order until one fails, and `Search.Nested` holds of the states that are reached
by coverings which are undone in the opposite order.
-/

namespace ExactCover

/-! ## Covering and uncovering -/

/-- The state of a search (`Solver`): the links, the nodes chosen so far, and the work
    done. -/
structure Search (c k : Nat) where
  /-- The matrix, less what is covered. -/
  links : LinkedMatrix c k
  /-- The nodes of the rows chosen so far, the last one first. Each lies in the column
      that its row was chosen to cover (`pointers`). -/
  trail : List (Node c k) := []
  /-- How often a node was hidden. -/
  updates : Nat := 0
deriving DecidableEq

namespace Search

variable {c k : Nat}

/-- The search for exact covers of a matrix, before the first step. -/
def ofMatrix (m : BitMatrix) : Search m.width m.ones.length where
  links := .ofMatrix m

/-- Hides a node from its vertical list and counts the update. -/
def hide (s : Search c k) (p : Node c k) : Except Fault (Search c k) :=
  let h := s.links.column p
  if s.links.size h = 0 then .error (.alreadyEmpty h)
  else .ok { s with links := s.links.hide p, updates := s.updates + 1 }

/-- Puts a node back into its vertical list. -/
def unhide (s : Search c k) (p : Node c k) : Except Fault (Search c k) :=
  .ok { s with links := s.links.unhide p }

/-- Hides the nodes in the row of `p` other than `p`, from left to right: the inner loop
    of `cover`. -/
def hideRow (s : Search c k) (p : Node c k) : Except Fault (Search c k) :=
  walk (fun s => s.links.right) hide p s

/-- Puts back the nodes in the row of `p` other than `p`, from right to left: the inner
    loop of `uncover`. -/
def unhideRow (s : Search c k) (p : Node c k) : Except Fault (Search c k) :=
  walk (fun s => s.links.left) unhide p s

/-- Covers a column (`cover`): it leaves the horizontal list, and its rows are hidden
    from top to bottom. -/
def cover (s : Search c k) (h : Header c) : Except Fault (Search c k) :=
  if s.links.horizontal.Joined h then
    walk (fun s => s.links.down) hideRow (s.links.head h) { s with links := s.links.detach h }
  else .error (.alreadyCovered h)

/-- Uncovers a column (`uncover`): its rows come back from bottom to top, and it rejoins
    the horizontal list. -/
def uncover (s : Search c k) (h : Header c) : Except Fault (Search c k) :=
  if s.links.horizontal.Parted h then do
    let s ← walk (fun s => s.links.up) unhideRow (s.links.head h) s
    return { s with links := s.links.attach h }
  else .error (.notDetached h)

/-- Covers the columns of the row of `p` other than that of `p`, cyclically from left to
    right (`cover_rest_of_row`). -/
def coverRow (s : Search c k) (p : Node c k) : Except Fault (Search c k) :=
  walk (fun s => s.links.right) (fun s q => s.cover (s.links.column q)) p s

/-- Uncovers the columns of the row of `p` other than that of `p`, cyclically from right
    to left (`uncover_rest_of_row`). -/
def uncoverRow (s : Search c k) (p : Node c k) : Except Fault (Search c k) :=
  walk (fun s => s.links.left) (fun s q => s.uncover (s.links.column q)) p s

/-- The positions of the chosen rows, in the order in which they were chosen. -/
def chosenRows (s : Search c k) : List Nat :=
  s.trail.reverse.map s.links.row

/-! ## Steps -/

/-- What a search does next. -/
inductive Phase where
  /-- Choose a row for another column. -/
  | descend
  /-- Reconsider the last choice. -/
  | backtrack
deriving DecidableEq, Repr

/-- What a search that has ended leaves behind. -/
structure Outcome (c k : Nat) (β : Type) where
  /-- The state after the last step. -/
  search : Search c k
  /-- What the visitor made of the exact covers. -/
  result : β
  /-- Whether the visitor ended the search. -/
  stopped : Bool

/-- What one step of a search leads to. -/
inductive Progress (c k : Nat) (β : Type) where
  /-- The search goes on. -/
  | going (phase : Phase) (search : Search c k) (result : β)
  /-- The search has ended. -/
  | ended (outcome : Outcome c k β)

/-- Uncovers all that the choices on the trail cover, the last one first (`unwind`). -/
def uncoverTrail (s : Search c k) : Except Fault (Search c k) :=
  s.trail.foldlM (fun s p => do
    let s ← s.uncoverRow p
    s.uncover (s.links.column p)) { s with trail := [] }

variable {β : Type}

/-- Chooses the first row of the shortest column, or visits an exact cover if no column
    remains: one turn of the inner loop of `solve`, steps X2 to X5 of Algorithm X, and
    X7 where no row can cover the column. -/
def descend (visit : β → List Nat → ForInStep β) (s : Search c k) (result : β) :
    Except Fault (Progress c k β) := do
  match ← s.links.shortest? with
  | none =>
    match visit result s.chosenRows with
    | .yield result => return .going .backtrack s result
    | .done result => return .ended ⟨← s.uncoverTrail, result, true⟩
  | some h =>
    let p := s.links.down (s.links.head h)
    if p = s.links.head h then
      return .going .backtrack s result
    else if s.links.size h = 0 then
      throw (.miscounted h)
    else
      let s ← s.cover h
      let s ← { s with trail := p :: s.trail }.coverRow p
      return .going .descend s result

/-- Replaces the last choice by the next row of its column, or takes it back if there is
    none: one turn of the last loop of `solve`, steps X5 to X8. -/
def backtrack (s : Search c k) (result : β) : Except Fault (Progress c k β) := do
  match s.trail with
  | [] => return .ended ⟨s, result, false⟩
  | p :: trail =>
    let s ← { s with trail }.uncoverRow p
    let h := s.links.column p
    let q := s.links.down p
    if q = s.links.head h then
      return .going .backtrack (← s.uncover h) result
    else
      let s ← { s with trail := q :: s.trail }.coverRow q
      return .going .descend s result

/-- One step of a search. -/
def step (visit : β → List Nat → ForInStep β) :
    Phase → Search c k → β → Except Fault (Progress c k β)
  | .descend, s, result => s.descend visit result
  | .backtrack, s, result => s.backtrack result

/-- Takes steps until the search ends, at most `fuel` of them. -/
def runFor (visit : β → List Nat → ForInStep β) :
    (fuel : Nat) → Phase → Search c k → β → Except Fault (Outcome c k β)
  | 0, _, _, _ => .error .endlessSearch
  | fuel + 1, phase, s, result => do
    match ← s.step visit phase result with
    | .going phase s result => runFor visit fuel phase s result
    | .ended outcome => return outcome

/-- A number of steps within which every search ends. A trail holds at most one node for
    each column, so there are at most `(k + 1) ^ c` trails, and at each of them the
    search descends once and backtracks once. -/
def stepBound (c k : Nat) : Nat :=
  2 * (k + 1).pow c

/-- Shows every exact cover of what is not yet covered to the visitor, as the positions
    of its rows in the order in which they were chosen, until the visitor is done
    (`solve`). -/
def run (visit : β → List Nat → ForInStep β) (s : Search c k) (result : β) :
    Except Fault (Outcome c k β) :=
  s.runFor visit (stepBound c k) .descend result

end Search

/-! ## Calls in any order

Nothing but the two checks keeps a caller from covering and uncovering columns in any
order. Two things can be told from the calls alone: which columns stand in the
horizontal list after them, and whether all that they cover is uncovered again in the
opposite order. -/

section

variable {c k : Nat}

/-- A call that changes the links. -/
inductive Call (c : Nat) where
  | cover (j : Fin c)
  | uncover (j : Fin c)
deriving DecidableEq, Repr

/-- The column that a call is about. -/
def Call.column : Call c → Fin c
  | cover j => j
  | uncover j => j

/-- Whether no call was about column `j`, or the last one uncovered it. -/
def standsAfter (calls : List (Call c)) (j : Fin c) : Bool :=
  match (calls.filter (·.column = j)).getLast? with
  | none => true
  | some (.uncover _) => true
  | some (.cover _) => false

/-- Every covering is undone after the coverings that came after it. -/
inductive Balanced : List (Call c) → Prop
  | nil : Balanced []
  | nest {j : Fin c} {inner rest : List (Call c)} : Balanced inner → Balanced rest →
      Balanced (.cover j :: (inner ++ .uncover j :: rest))

namespace Search

/-- Makes a call. -/
def perform (s : Search c k) : Call c → Except Fault (Search c k)
  | .cover j => s.cover (headerOf j)
  | .uncover j => s.uncover (headerOf j)

/-- Makes one call after another. -/
def performAll (s : Search c k) (calls : List (Call c)) : Except Fault (Search c k) :=
  calls.foldlM perform s

end Search

end

/-! ## Properly nested coverings -/

/-- The states that are reached from the unsearched matrix `m` by coverings of columns
    that are not covered, and by uncoverings of the column that was covered last. The
    columns that are covered in the state are listed, the last one first. -/
inductive Search.Nested (m : BitMatrix) :
    List (Fin m.width) → Search m.width m.ones.length → Prop
  | start : Nested m [] (.ofMatrix m)
  | cover {js : List (Fin m.width)} {j : Fin m.width} {s t : Search m.width m.ones.length} :
      Nested m js s → j ∉ js → s.cover (headerOf j) = .ok t → Nested m (j :: js) t
  | uncover {js : List (Fin m.width)} {j : Fin m.width} {s t : Search m.width m.ones.length} :
      Nested m (j :: js) s → s.uncover (headerOf j) = .ok t → Nested m js t

end ExactCover
