import ExactCover.Residual
import ExactCover.Proofs.Covering

/-!
# What is left, in the links and in the matrix

What is left of a matrix when some columns are covered is a smaller problem: the other
columns, and the rows that avoid the covered ones. The scan of the horizontal list,
which reads the sizes that are kept with the columns, finds the same column in it as a
comparison of the candidates of all columns.

How many 1s are hidden when columns are covered one after another does not depend on the
links either: it is the number of the other 1s of all rows that avoid what was covered
before and meet one of the columns, each row counted once.

Results:
* `shortest?_ofCovered`: the scan returns the leftmost of the shortest columns.
* `choose_ofCovered`: to choose a row is to cover the columns in which it has 1s.
* `coverWork_eq`: the work of covering some columns.
* `length_hiddenBy_candidates`, `coverWork_restOfRow`: the work of branching on a column
  and of choosing a row.
-/

namespace ExactCover

open BitMatrix

/-! ## The column to branch on -/

/-! ### The leftmost of the smallest -/

section

variable {α : Type} {size : α → Nat} {a b : α} {l : List α}

/-- The leftmost member of smallest size. -/
def leftmost? (size : α → Nat) (l : List α) : Option α :=
  l.find? fun a => l.all fun b => size a ≤ size b

theorem leftmost?_congr {size' : α → Nat} (h : ∀ a ∈ l, size a = size' a) :
    leftmost? size l = leftmost? size' l := by
  refine List.find?_congr fun a ha => ?_
  rw [Bool.eq_iff_iff, List.all_eq_true, List.all_eq_true]
  apply forall₂_congr
  intro b hb
  rw [h a ha, h b hb]

theorem leftmost?_map {β : Type} (f : β → α) (l : List β) :
    leftmost? size (l.map f) = (leftmost? (size ∘ f) l).map f := by
  unfold leftmost?
  rw [List.find?_map]
  simp [List.all_map, Function.comp_def]

theorem find?_skip {p : α → Bool} (h : p a = true → p b = true) :
    (b :: a :: l).find? p = (b :: l).find? p := by
  cases hb : p b with
  | true => simp [hb]
  | false =>
    have ha : p a = false := by
      cases ha : p a with
      | true => rw [h ha] at hb; cases hb
      | false => rfl
    simp [hb, ha]

/-- A member does not matter if one before it is as small. -/
theorem leftmost?_skip (h : size b ≤ size a) :
    leftmost? size (b :: a :: l) = leftmost? size (b :: l) := by
  have hall : ∀ x, (b :: a :: l).all (fun y => decide (size x ≤ size y)) =
      (b :: l).all fun y => decide (size x ≤ size y) := by
    intro x
    simp only [List.all_cons]
    by_cases hxb : size x ≤ size b
    · simp [hxb, le_trans hxb h]
    · simp [hxb]
  simp only [leftmost?, hall]
  refine find?_skip fun ha => List.all_eq_true.2 fun y hy => ?_
  have hay := List.all_eq_true.1 ha y hy
  simp only [decide_eq_true_eq] at hay ⊢
  exact le_trans h hay

/-- A member does not matter if one after it is smaller. -/
theorem leftmost?_replace (h : size a < size b) :
    leftmost? size (b :: a :: l) = leftmost? size (a :: l) := by
  have hall : ∀ x, (b :: a :: l).all (fun y => decide (size x ≤ size y)) =
      (a :: l).all fun y => decide (size x ≤ size y) := by
    intro x
    simp only [List.all_cons]
    by_cases hxa : size x ≤ size a
    · simp [hxa, le_trans hxa h.le]
    · simp [hxa]
  simp only [leftmost?, hall]
  rw [List.find?_cons_of_neg]
  simp [h]

/-- The first member of size zero cannot be undercut. -/
theorem leftmost?_of_zero {best : Option α} (hbest : ∀ b ∈ best, 0 < size b) (h : size a = 0) :
    leftmost? size (best.toList ++ a :: l) = some a := by
  have ha : ((best.toList ++ a :: l).all fun y => decide (size a ≤ size y)) = true := by simp [h]
  cases best with
  | none => exact List.find?_cons_of_pos ha
  | some b =>
    have hb : 0 < size b := hbest b rfl
    refine (List.find?_cons_of_neg ?_).trans (List.find?_cons_of_pos ha)
    simp [h, hb.ne']

end

namespace LinkedMatrix

variable {c k : Nat} {L : LinkedMatrix c k}

theorem shortestFrom_eq : ∀ {hs : List (Header c)} {h : Header c} {fuel : Nat}
    {best : Option (Header c)}, Leads L.horizontal.next root h hs → hs.length ≤ fuel →
    (∀ b ∈ best, 0 < L.size b) →
    L.shortestFrom fuel h best = .ok (leftmost? L.size (best.toList ++ hs)) := by
  intro hs
  induction hs with
  | nil =>
    intro h fuel best hleads _ _
    cases hleads
    have hbest : leftmost? L.size (best.toList ++ []) = best := by
      cases best <;> simp [leftmost?]
    rw [hbest]
    cases fuel <;> simp [shortestFrom]
  | cons h hs ih =>
    intro h' fuel best hleads hfuel hbest
    cases hleads with
    | step hne hrest =>
      cases fuel with
      | zero => simp at hfuel
      | succ fuel =>
        rw [shortestFrom, if_neg hne]
        by_cases hsize : L.size h = 0
        · rw [if_pos hsize, leftmost?_of_zero hbest hsize]
        · have hpos : 0 < L.size h := Nat.pos_of_ne_zero hsize
          rw [if_neg hsize]
          have hlen : hs.length ≤ fuel := by simpa using hfuel
          cases best with
          | none => exact ih hrest hlen (by simpa using hpos)
          | some b =>
            by_cases hlt : L.size h < L.size b
            · simp only [Option.all_some, hlt, decide_true, if_true]
              rw [ih hrest hlen (by simpa using hpos)]
              exact congrArg Except.ok (leftmost?_replace hlt).symm
            · simp only [Option.all_some, hlt, decide_false, Bool.false_eq_true, if_false]
              rw [ih hrest hlen hbest]
              exact congrArg Except.ok (leftmost?_skip (not_lt.1 hlt)).symm

end LinkedMatrix

/-! ### What is left of the matrix -/

namespace Residual

variable {m : BitMatrix} {js : List (Fin m.width)} {j : Fin m.width}

/-- What is left of the matrix when the columns `js` are covered. -/
def ofCovered (m : BitMatrix) (js : List (Fin m.width)) : Residual m where
  columns := (List.finRange m.width).filter (· ∉ js)
  rows := (List.range m.height).filter fun r => m.avoids js r

theorem ofCovered_nil (m : BitMatrix) : ofCovered m [] = whole m := by
  simp [ofCovered, whole, avoids]

theorem mem_columns_ofCovered : j ∈ (ofCovered m js).columns ↔ j ∉ js := by
  simp [ofCovered]

theorem notMem_of_shortest? (h : (ofCovered m js).shortest? = some j) : j ∉ js :=
  mem_columns_ofCovered.1 (List.mem_of_find?_eq_some h)

theorem candidates_ofCovered (hnodup : js.Nodup) (hj : j ∉ js) :
    (ofCovered m js).candidates j = (m.standing (m.hiddenAfter js) j).map m.rowOf := by
  rw [map_rowOf_standing hnodup hj, candidates, ofCovered, List.filter_filter]

/-- To choose a row is to cover the columns in which it has 1s. -/
theorem choose_ofCovered (i : m.One) (js : List (Fin m.width)) :
    (ofCovered m js).choose (m.rowOf i) = ofCovered m ((m.choiceColumns i).reverse ++ js) := by
  have hcolumns : ∀ j, decide (j ∉ (m.choiceColumns i).reverse ++ js) =
      (!m.entry (m.rowOf i) j && decide (j ∉ js)) := by
    intro j
    cases hentry : m.entry (m.rowOf i) j <;> simp [hentry]
  have hrows : ∀ r, m.avoids ((m.choiceColumns i).reverse ++ js) r =
      (!m.meets (m.rowOf i) r && m.avoids js r) := by
    intro r
    rw [avoids_append]
    congr 1
    rw [Bool.eq_iff_iff, avoids_iff]
    simp only [List.mem_reverse, mem_choiceColumns, meets, Bool.not_eq_true', List.any_eq_false,
      List.mem_finRange, Bool.and_eq_true, not_and, Bool.not_eq_true, true_imp_iff]
  simp only [choose, ofCovered, List.filter_filter, hcolumns, hrows]

end Residual

namespace LinkedMatrix

variable {m : BitMatrix} {js : List (Fin m.width)}

theorem size_ofCovered (hnodup : js.Nodup) {j : Fin m.width} (hj : j ∉ js) :
    (ofCovered m js).size (headerOf j) = ((Residual.ofCovered m js).candidates j).length := by
  rw [(lacks_ofCovered hnodup).size, Residual.candidates_ofCovered hnodup hj, List.length_map]

/-- The scan of the horizontal list finds the leftmost of the shortest columns that are
    left. -/
theorem shortest?_ofCovered (hnodup : js.Nodup) :
    (ofCovered m js).shortest? = .ok ((Residual.ofCovered m js).shortest?.map headerOf) := by
  have hring := horizontal_ofCovered (m := m) hnodup
  have hlength := hring.length_le
  unfold shortest?
  rw [shortestFrom_eq hring.leads hlength (by simp)]
  have hsize : leftmost? ((ofCovered m js).size ∘ headerOf) (Residual.ofCovered m js).columns =
      (Residual.ofCovered m js).shortest? :=
    leftmost?_congr fun j hj => size_ofCovered hnodup (Residual.mem_columns_ofCovered.1 hj)
  rw [← hsize]
  exact congrArg Except.ok (leftmost?_map headerOf (Residual.ofCovered m js).columns)

end LinkedMatrix

/-! ## The work of covering -/

section

open Residual

variable {m : BitMatrix} {js l : List (Fin m.width)} {j : Fin m.width}

/-- To sum over two kinds of members is to sum over both kinds at once. -/
theorem sum_filter_add {α : Type} {p q s : α → Bool} (f : α → Nat) (hs : ∀ a, s a = (p a || q a))
    (hpq : ∀ a, p a = true → q a = false) (l : List α) :
    ((l.filter p).map f).sum + ((l.filter q).map f).sum = ((l.filter s).map f).sum := by
  induction l with
  | nil => rfl
  | cons a l ih =>
    rw [List.filter_cons, List.filter_cons, List.filter_cons, hs]
    cases hp : p a with
    | true =>
      simp only [hpq a hp, Bool.true_or, if_true, List.map_cons, List.sum_cons, Bool.false_eq_true,
        if_false]
      omega
    | false =>
      cases hq : q a with
      | true =>
        simp only [Bool.or_true, if_true, List.map_cons, List.sum_cons, Bool.false_eq_true,
          if_false]
        omega
      | false => simpa using ih

theorem length_restOfRow (i : m.One) : (m.restOfRow i).length = excess m (m.rowOf i) := by
  have hlength := (cons_restOfRow_perm i).length_eq
  have hrow := congrArg List.length (map_columnOf_onesInRow (m := m) (m.rowOf i))
  rw [List.length_map, ← List.countP_eq_length_filter] at hrow
  rw [List.length_cons, hrow] at hlength
  unfold excess
  rw [← hlength, Nat.add_sub_cancel]

theorem length_hiddenBy (gone : List m.One) (j : Fin m.width) :
    (m.hiddenBy gone j).length = (((m.standing gone j).map m.rowOf).map (excess m)).sum := by
  unfold hiddenBy
  rw [List.length_flatMap, List.map_map]
  congr 1
  exact List.map_congr_left fun i _ => length_restOfRow i

/-- To branch on a column hides the other 1s of its candidates. -/
theorem length_hiddenBy_candidates (hnodup : (j :: js).Nodup) :
    (m.hiddenBy (m.hiddenAfter js) j).length =
      (((ofCovered m js).candidates j).map (excess m)).sum := by
  obtain ⟨hj, hnodup'⟩ := List.nodup_cons.1 hnodup
  rw [length_hiddenBy, candidates_ofCovered hnodup' hj]

/-- To cover the columns `l` hides the other 1s of each row that meets one of them,
    once. -/
theorem coverWork_eq (hnodup : (l.reverse ++ js).Nodup) :
    m.coverWork js l =
      (((List.range m.height).filter fun r => m.avoids js r && !m.avoids l r).map
        (excess m)).sum := by
  induction l generalizing js with
  | nil => simp [coverWork, avoids]
  | cons j l ih =>
    have hnodup' : (l.reverse ++ j :: js).Nodup := by simpa using hnodup
    have hjs : (j :: js).Nodup := (List.nodup_append.1 hnodup').2.1
    rw [coverWork, length_hiddenBy_candidates hjs, ih hnodup', candidates, ofCovered,
      List.filter_filter]
    refine sum_filter_add _ (fun r => ?_) (fun r hr => ?_) _
    · rw [avoids_cons, avoids_cons]
      cases m.entry r j <;> cases m.avoids js r <;> simp
    · have hentry : m.entry r j = true := by simpa using (Bool.and_eq_true_iff.1 hr).1
      simp [avoids_cons, hentry]

/-- To choose a row hides, beyond what it takes to branch on the column, the other 1s of
    each further row that it meets. -/
theorem coverWork_restOfRow (i : m.One)
    (hnodup : ((m.choiceColumns i).reverse ++ js).Nodup) :
    m.coverWork (m.columnOf i :: js) ((m.restOfRow i).map m.columnOf) =
      (ofCovered m js).effort (m.columnOf i) (m.rowOf i) := by
  have hnodup' : (((m.restOfRow i).map m.columnOf).reverse ++ m.columnOf i :: js).Nodup := by
    simpa [choiceColumns] using hnodup
  have hmeets : ∀ r, m.meets (m.rowOf i) r = !m.avoids (m.choiceColumns i) r := by
    intro r
    rw [Bool.eq_iff_iff]
    simp [meets, avoids]
  unfold effort ofCovered
  rw [coverWork_eq hnodup', List.filter_filter]
  congr 2
  apply List.filter_congr
  intro r _
  rw [hmeets, choiceColumns, List.map_cons, avoids_cons, avoids_cons]
  cases m.entry r (m.columnOf i) <;> cases m.avoids js r <;> simp

end

end ExactCover
