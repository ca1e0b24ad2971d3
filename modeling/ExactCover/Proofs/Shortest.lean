import ExactCover.Proofs.Choice
import ExactCover.Proofs.NestedLists

/-!
# The column with the fewest rows left

The scan for a column to branch on reads sizes that are kept with the columns, along a
list that changes, and it ends early at a column without rows. What it finds can be told
from the matrix and the covered columns alone: of the columns that are not covered the
leftmost with the fewest rows left. The early end makes no difference, in any state
whose horizontal list is closed.

Results:
* `shortest?_eq_scan?`: the scan with and without the early end.
* `shortest?_of_nested`: what is found in a properly nested state.
-/

namespace ExactCover

open BitMatrix

/-! ## The scan to the end -/

namespace LinkedMatrix

variable {c k : Nat} {L : LinkedMatrix c k} {b h : Header c} {best : Option (Header c)}
  {hs : List (Header c)} {fuel : Nat}

/-- The scan that goes on after a column without rows. -/
def scanFrom (L : LinkedMatrix c k) : (fuel : Nat) → (h : Header c) → (best : Option (Header c)) →
    Except Fault (Option (Header c))
  | 0, h, best => if h = root then .ok best else .error .unclosedList
  | fuel + 1, h, best =>
    if h = root then .ok best
    else
      let best := if best.all (L.size h < L.size ·) then some h else best
      scanFrom L fuel (L.horizontal.next h) best

/-- The result of the scan of the whole horizontal list. -/
def scan? (L : LinkedMatrix c k) : Except Fault (Option (Header c)) :=
  L.scanFrom (c + 1) (L.horizontal.next root) none

/-- A column without rows is not replaced by any that follows. -/
theorem scanFrom_of_size_eq_zero (hleads : Leads L.horizontal.next root h hs)
    (hfuel : hs.length ≤ fuel) (hb : L.size b = 0) : L.scanFrom fuel h (some b) = .ok (some b) := by
  induction hleads generalizing fuel with
  | home => cases fuel <;> simp [scanFrom]
  | step hne _ ih =>
    cases fuel with
    | zero => simp at hfuel
    | succ fuel =>
      rw [scanFrom, if_neg hne]
      simpa [hb] using ih (by simpa using hfuel)

theorem shortestFrom_eq_scanFrom (hleads : Leads L.horizontal.next root h hs)
    (hfuel : hs.length ≤ fuel) (hbest : ∀ b ∈ best, 0 < L.size b) :
    L.shortestFrom fuel h best = L.scanFrom fuel h best := by
  induction hleads generalizing fuel best with
  | home => cases fuel <;> simp [shortestFrom, scanFrom]
  | @step h hs hne hrest ih =>
    cases fuel with
    | zero => simp at hfuel
    | succ fuel =>
      have hlen : hs.length ≤ fuel := by simpa using hfuel
      rw [shortestFrom, scanFrom, if_neg hne, if_neg hne]
      by_cases hsize : L.size h = 0
      · have hall : best.all (L.size h < L.size ·) = true := by
          rw [hsize, Option.all_eq_true]
          simpa using hbest
        rw [if_pos hsize, if_pos hall]
        exact (scanFrom_of_size_eq_zero hrest hlen hsize).symm
      · rw [if_neg hsize]
        refine ih hlen fun b hb => ?_
        split at hb
        · cases hb
          exact Nat.pos_of_ne_zero hsize
        · exact hbest b hb

/-- The early end of the scan makes no difference where the horizontal list is
    closed. -/
theorem shortest?_eq_scan? (hring : L.horizontal.IsRing (root :: hs)) : L.shortest? = L.scan? :=
  shortestFrom_eq_scanFrom hring.leads hring.length_le (by simp)

end LinkedMatrix

/-! ## The leftmost of the shortest columns -/

/-- In an ascending list the first member with a property is the least one. -/
theorem find?_eq_some_iff_of_pairwise {n : Nat} {l : List (Fin n)} (hl : l.Pairwise (· < ·))
    {p : Fin n → Bool} {j : Fin n} :
    l.find? p = some j ↔ j ∈ l ∧ p j = true ∧ ∀ j' ∈ l, j' < j → p j' = false := by
  rw [List.find?_eq_some_iff_append]
  constructor
  · rintro ⟨hj, xs, ys, rfl, hxs⟩
    refine ⟨by simp, hj, fun j' hj' hlt => ?_⟩
    rcases List.mem_append.1 hj' with hmem | hmem
    · simpa using hxs j' hmem
    · have hle : j ≤ j' := by
        rcases List.mem_cons.1 hmem with rfl | hmem
        · exact le_rfl
        · exact ((List.pairwise_cons.1 (List.pairwise_append.1 hl).2.1).1 j' hmem).le
      exact absurd hlt (not_lt_of_ge hle)
  · rintro ⟨hmem, hj, hbefore⟩
    obtain ⟨xs, ys, rfl⟩ := List.append_of_mem hmem
    refine ⟨hj, xs, ys, rfl, fun j' hj' => ?_⟩
    have hlt : j' < j := (List.pairwise_append.1 hl).2.2 j' hj' j List.mem_cons_self
    simpa using hbefore j' (List.mem_append_left _ hj') hlt

variable {m : BitMatrix} {js : List (Fin m.width)} {j : Fin m.width}

/-- The number of rows with a 1 in column `j` and none in the columns `js`. -/
def BitMatrix.rowsLeft (m : BitMatrix) (js : List (Fin m.width)) (j : Fin m.width) : Nat :=
  (List.range m.height).countP fun r => m.entry r j && m.avoids js r

/-- Of the columns outside `js`, column `j` is the leftmost with the fewest rows
    left. -/
structure BitMatrix.IsShortest (m : BitMatrix) (js : List (Fin m.width)) (j : Fin m.width) :
    Prop where
  active : j ∉ js
  fewest : ∀ j' ∉ js, m.rowsLeft js j ≤ m.rowsLeft js j'
  leftmost : ∀ j' ∉ js, j' < j → m.rowsLeft js j < m.rowsLeft js j'

namespace Residual

theorem length_candidates_ofCovered (js : List (Fin m.width)) (j : Fin m.width) :
    ((ofCovered m js).candidates j).length = m.rowsLeft js j := by
  rw [candidates, ofCovered, List.filter_filter, rowsLeft, List.countP_eq_length_filter]

theorem shortest?_eq_some_iff : (ofCovered m js).shortest? = some j ↔ m.IsShortest js j := by
  have hsorted : (ofCovered m js).columns.Pairwise (· < ·) := (List.pairwise_lt_finRange _).filter _
  rw [shortest?, find?_eq_some_iff_of_pairwise hsorted]
  simp only [List.all_eq_true, List.all_eq_false, decide_eq_true_eq, mem_columns_ofCovered,
    length_candidates_ofCovered, not_le]
  constructor
  · rintro ⟨hj, hfewest, hleftmost⟩
    refine ⟨hj, hfewest, fun j' hj' hlt => ?_⟩
    obtain ⟨j₀, hj₀, hless⟩ := hleftmost j' hj' hlt
    exact (hfewest j₀ hj₀).trans_lt hless
  · rintro ⟨hj, hfewest, hleftmost⟩
    exact ⟨hj, hfewest, fun j' hj' hlt => ⟨j, hj, hleftmost j' hj' hlt⟩⟩

end Residual

namespace Search

variable {s : Search m.width m.ones.length}

/-- **The column choice is the true minimum.** In every properly nested state, none is
    chosen if and only if all columns are covered, and otherwise the leftmost of the
    columns with the fewest rows that meet it and avoid all covered columns. The scan
    that does not end early at a column without rows finds the same. -/
theorem shortest?_of_nested (h : Nested m js s) :
    ∃ best : Option (Fin m.width), s.links.shortest? = .ok (best.map headerOf) ∧
      s.links.scan? = s.links.shortest? ∧
      (best = none ↔ ∀ j, j ∈ js) ∧ ∀ j, best = some j ↔ m.IsShortest js j := by
  obtain ⟨hnodup, hs⟩ := h.eq_after
  rw [hs]
  refine ⟨(Residual.ofCovered m js).shortest?, LinkedMatrix.shortest?_ofCovered hnodup,
    (LinkedMatrix.shortest?_eq_scan? (LinkedMatrix.horizontal_ofCovered hnodup)).symm, ?_,
    fun j => Residual.shortest?_eq_some_iff⟩
  rw [Residual.shortest?_eq_none_iff, List.eq_nil_iff_forall_not_mem]
  simp only [Residual.mem_columns_ofCovered, not_not]

/-- With the columns 0 and 3 of the sample covered, the columns 4 and 6 have one row
    left, and the others two. The first of them is found. -/
theorem shortest?_of_nested_sample :
    ∃ s, Nested sample [3, 0] s ∧ s.links.shortest? = .ok (some (headerOf 4)) ∧
      s.links.scan? = .ok (some (headerOf 4)) ∧ sample.rowsLeft [3, 0] 4 = 1 ∧
      sample.rowsLeft [3, 0] 6 = 1 := by
  have hnodup : ([3, 0] : List (Fin sample.width)).Nodup := by decide
  obtain ⟨u, h⟩ := exists_nested hnodup
  obtain ⟨best, hshortest, hscan, -, hbest⟩ := shortest?_of_nested h
  have hfour : sample.IsShortest [3, 0] 4 := ⟨by decide, by decide, by decide⟩
  rw [(hbest 4).2 hfour] at hshortest
  exact ⟨_, h, hshortest, hscan.trans hshortest, by decide, by decide⟩

end Search

end ExactCover
