/-!
# Circular lists in one table

`Rings n` holds circular doubly linked lists over the positions below `n`, each position
in at most one of them. A position that is taken out of its list keeps its own two
links. They still name the neighbours it had, and that is all it takes to put it back:
as long as removals are undone in the opposite order, every list comes back just as it
was, without a search for the place.

The links are kept in tables with a value for every position. Positions are `Fin`s, so
that reading and writing cannot miss, and a table is known by what is read from it.

Results:
* `Table.read_write`: a write changes what is read at its own position only.
* `Table.ext_read`: tables from which the same is read everywhere are equal.
* `prev_remove`, `next_remove`, `prev_restore`, `next_restore`, `prev_insertBefore`,
  `next_insertBefore`: what every operation does to every link.
* `restore_remove`: a position whose neighbours point at it can be removed and restored.
-/

namespace ExactCover

/-! ## Tables -/

/-- A value of type `α` for each position below `n`. -/
abbrev Table (n : Nat) (α : Type) := Vector α n

namespace Table

variable {n : Nat} {α : Type}

/-- The value at `p`. -/
@[inline] def read (t : Table n α) (p : Fin n) : α :=
  getElem t p.val p.isLt

/-- Replaces the value at `p`. -/
@[inline] def write (t : Table n α) (p : Fin n) (x : α) : Table n α :=
  Vector.set t p.val x p.isLt

/-- The table with the value of `f` at every position. -/
def ofFn (f : Fin n → α) : Table n α :=
  Vector.ofFn f

@[simp] theorem read_ofFn (f : Fin n → α) (p : Fin n) : (ofFn f).read p = f p := by
  simp [ofFn, read]

theorem read_write (t : Table n α) (p q : Fin n) (x : α) :
    (t.write p x).read q = if q = p then x else t.read q := by
  simp only [read, write, Vector.getElem_set, Fin.ext_iff, eq_comm]

theorem ext_read {t u : Table n α} (h : ∀ p, t.read p = u.read p) : t = u :=
  Vector.ext fun i hi => h ⟨i, hi⟩

end Table

/-! ## Rings -/

/-- Circular doubly linked lists over the positions below `n`. -/
structure Rings (n : Nat) where
  /-- The link from each position to the one before it. -/
  prevs : Table n (Fin n)
  /-- The link from each position to the one after it. -/
  nexts : Table n (Fin n)
deriving DecidableEq

namespace Rings

variable {n : Nat}

/-- The position before `p`. -/
def prev (r : Rings n) (p : Fin n) : Fin n :=
  r.prevs.read p

/-- The position after `p`. -/
def next (r : Rings n) (p : Fin n) : Fin n :=
  r.nexts.read p

/-- Every position in a list of its own. -/
def alone (n : Nat) : Rings n where
  prevs := Table.ofFn fun p => p
  nexts := Table.ofFn fun p => p

/-- All positions in one list, in increasing order. -/
def cycle (n : Nat) : Rings (n + 1) where
  prevs := Table.ofFn fun p => p - 1
  nexts := Table.ofFn fun p => p + 1

/-- Takes `p` out of its list. The links of `p` itself stay. -/
def remove (r : Rings n) (p : Fin n) : Rings n :=
  let before := r.prev p
  let after := r.next p
  { prevs := r.prevs.write after before, nexts := r.nexts.write before after }

/-- Puts `p` back between the two positions that its own links name. -/
def restore (r : Rings n) (p : Fin n) : Rings n :=
  let before := r.prev p
  let after := r.next p
  { prevs := r.prevs.write after p, nexts := r.nexts.write before p }

/-- Puts `p` just before `anchor`, that is, at the end of the list that begins at
    `anchor`. -/
def insertBefore (r : Rings n) (anchor p : Fin n) : Rings n :=
  let last := r.prev anchor
  { prevs := (r.prevs.write p last).write anchor p, nexts := (r.nexts.write p anchor).write last p }

/-- The position before `p` points at `p`. -/
def Joined (r : Rings n) (p : Fin n) : Prop :=
  r.next (r.prev p) = p

/-- The positions that `p` points at stand next to each other. -/
def Parted (r : Rings n) (p : Fin n) : Prop :=
  r.next (r.prev p) = r.next p ∧ r.prev (r.next p) = r.prev p

instance (r : Rings n) (p : Fin n) : Decidable (r.Joined p) :=
  inferInstanceAs (Decidable (_ = _))

instance (r : Rings n) (p : Fin n) : Decidable (r.Parted p) :=
  inferInstanceAs (Decidable (_ ∧ _))

@[ext] theorem ext_links {r s : Rings n} (hprev : ∀ p, r.prev p = s.prev p)
    (hnext : ∀ p, r.next p = s.next p) : r = s := by
  obtain ⟨rp, rn⟩ := r
  obtain ⟨sp, sn⟩ := s
  congr
  · exact Table.ext_read hprev
  · exact Table.ext_read hnext

@[simp] theorem prev_alone (p : Fin n) : (alone n).prev p = p := by simp [prev, alone]

@[simp] theorem next_alone (p : Fin n) : (alone n).next p = p := by simp [next, alone]

@[simp] theorem prev_cycle (p : Fin (n + 1)) : (cycle n).prev p = p - 1 := by simp [prev, cycle]

@[simp] theorem next_cycle (p : Fin (n + 1)) : (cycle n).next p = p + 1 := by simp [next, cycle]

theorem prev_remove (r : Rings n) (p q : Fin n) :
    (r.remove p).prev q = if q = r.next p then r.prev p else r.prev q :=
  Table.read_write ..

theorem next_remove (r : Rings n) (p q : Fin n) :
    (r.remove p).next q = if q = r.prev p then r.next p else r.next q :=
  Table.read_write ..

theorem prev_restore (r : Rings n) (p q : Fin n) :
    (r.restore p).prev q = if q = r.next p then p else r.prev q :=
  Table.read_write ..

theorem next_restore (r : Rings n) (p q : Fin n) :
    (r.restore p).next q = if q = r.prev p then p else r.next q :=
  Table.read_write ..

theorem prev_insertBefore (r : Rings n) (anchor p q : Fin n) :
    (r.insertBefore anchor p).prev q =
      if q = anchor then p else if q = p then r.prev anchor else r.prev q := by
  show ((r.prevs.write p (r.prev anchor)).write anchor p).read q = _
  rw [Table.read_write, Table.read_write]
  rfl

theorem next_insertBefore (r : Rings n) (anchor p q : Fin n) :
    (r.insertBefore anchor p).next q =
      if q = r.prev anchor then p else if q = p then anchor else r.next q := by
  show ((r.nexts.write p anchor).write (r.prev anchor) p).read q = _
  rw [Table.read_write, Table.read_write]
  rfl

/-- Removal is undone by restoring, if both neighbours of `p` point at it and `p` is not
    alone. -/
theorem restore_remove {r : Rings n} {p : Fin n} (hprev : r.next (r.prev p) = p)
    (hnext : r.prev (r.next p) = p) (hp : r.next p ≠ p) : (r.remove p).restore p = r := by
  have hp' : r.prev p ≠ p := fun h => hp (by rw [h] at hprev; exact hprev)
  have hprev_p : (r.remove p).prev p = r.prev p := by rw [prev_remove, if_neg hp.symm]
  have hnext_p : (r.remove p).next p = r.next p := by rw [next_remove, if_neg hp'.symm]
  ext q
  · rw [prev_restore, hnext_p, prev_remove]
    split
    · next h => rw [h, hnext]
    · rfl
  · rw [next_restore, hprev_p, next_remove]
    split
    · next h => rw [h, hprev]
    · rfl

end Rings

end ExactCover
