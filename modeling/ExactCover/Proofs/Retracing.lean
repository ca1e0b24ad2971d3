import ExactCover.Proofs.Trails
import ExactCover.Proofs.SeveralColumns

/-!
# The trail tells the links

A search takes choices back and goes on from there, without starting again. Still its
links are at any time those of a straight way: from the links at its start, cover for
each node on the trail in turn the column of the node and then the other columns of its
row, around the row to the right. Nothing is left of the choices that were taken back,
not even in the links of hidden nodes and of covered columns.

Results:
* `asksVisitor_iff`: where the visitor is asked.
* `retraces_onTrail`: what a trail tells.
* `retraces_of_nested`: every state of a search is told by its trail.
-/

namespace ExactCover

open BitMatrix

variable {m : BitMatrix} {js : List (Fin m.width)} {is : List m.One}

/-! ## What is covered along a trail -/

/-- The columns that are covered after the column of a choice are those of its row and
    of later choices. -/
theorem exists_coveredBy_append (js : List (Fin m.width)) (later : List m.One) (i : m.One)
    (earlier : List m.One) :
    ∃ l, m.coveredBy js (later ++ i :: earlier) = l ++ m.columnOf i :: m.coveredBy js earlier := by
  refine ⟨(later.reverse.flatMap m.choiceColumns).reverse ++
    ((m.restOfRow i).map m.columnOf).reverse, ?_⟩
  rw [coveredBy_append, coveredBy_eq _ later, coveredBy, reverse_choiceColumns_append,
    List.append_assoc]

/-- Each choice covers at least its own column. -/
theorem length_le_coveredBy (js : List (Fin m.width)) (is : List m.One) :
    js.length + is.length ≤ (m.coveredBy js is).length := by
  induction is with
  | nil => rfl
  | cons i is ih =>
    rw [coveredBy, List.length_append, List.length_reverse, choiceColumns, List.length_map,
      List.length_cons, List.length_cons]
    omega

theorem LinkedMatrix.activeColumns_eq_nil_iff (hnodup : js.Nodup) :
    (ofCovered m js).activeColumns = .ok [] ↔ (ofCovered m js).shortest? = .ok none := by
  rw [activeColumns_ofCovered hnodup, shortest?_ofCovered hnodup, Except.ok.injEq, Except.ok.injEq,
    List.map_eq_nil_iff, Option.map_eq_none_iff, Residual.shortest?_eq_none_iff]
  rfl

namespace Search

/-! ## Visits -/

section

variable {c k : Nat} {s : Search c k} {β : Type} {visit : β → List Nat → ForInStep β} {b : β}

/-- A descent from `s` is a visit: what it leads to depends on the visitor. -/
def AsksVisitor (s : Search c k) (b : β) : Prop :=
  ∃ visit visit' : β → List Nat → ForInStep β, s.descend visit b ≠ s.descend visit' b

theorem descend_of_shortest?_eq_none (h : s.links.shortest? = .ok none) :
    s.descend visit b =
      match visit b s.chosenRows with
      | .yield b => .ok (.going .backtrack s b)
      | .done b => s.uncoverTrail >>= fun t => .ok (.ended ⟨t, b, true⟩) := by
  unfold descend
  rw [h]
  rfl

/-- The visitor is asked where no column is found to branch on. -/
theorem asksVisitor_iff : s.AsksVisitor b ↔ s.links.shortest? = .ok none := by
  constructor
  · rintro ⟨visit, visit', hne⟩
    unfold descend at hne
    cases hshortest : s.links.shortest? with
    | error fault =>
      rw [hshortest] at hne
      exact absurd rfl hne
    | ok best =>
      rw [hshortest] at hne
      cases best with
      | none => rfl
      | some h => exact absurd rfl hne
  · intro hshortest
    refine ⟨fun b _ => .yield b, fun b _ => .done b, fun heq => ?_⟩
    rw [descend_of_shortest?_eq_none hshortest, descend_of_shortest?_eq_none hshortest] at heq
    cases huncover : s.uncoverTrail with
    | error fault =>
      rw [huncover] at heq
      cases heq
    | ok t =>
      rw [huncover] at heq
      cases heq

end

/-! ## Retracing a trail -/

/-- The state `t` of a search that began in `s`, with the columns `js` covered, is told
    by the 1s on its trail, the first one first. -/
structure Retraces (js : List (Fin m.width)) (s t : Search m.width m.ones.length)
    (is : List m.One) : Prop where
  /-- They are the nodes on the trail. -/
  trail : t.trail.reverse = is.map m.node
  /-- The links are those that come from covering the columns of their rows, those of
      each row around the row to the right from the 1 on. -/
  links : ∃ t', s.coverAll (is.flatMap m.choiceColumns) = .ok t' ∧ t'.links = t.links
  /-- Each 1 lies in the vertical list of the column that is chosen once the columns of
      the rows before it are covered, and this list has not changed since. -/
  choice : ∀ before i later, is = before ++ i :: later →
    ∃ t' nodes, s.coverAll (before.flatMap m.choiceColumns) = .ok t' ∧
      t'.links.shortest? = .ok (some (headerOf (m.columnOf i))) ∧
      t'.links.nodesDown (headerOf (m.columnOf i)) = .ok nodes ∧ m.node i ∈ nodes ∧
      t.links.nodesDown (headerOf (m.columnOf i)) = .ok nodes
  /-- No two of their rows have a 1 in the same column. -/
  apart : t.chosenRows.Pairwise fun r r' => m.meets r r' = false
  /-- So there are no more of them than columns that were not covered before. -/
  length_le : js.length + t.trail.length ≤ m.width

theorem exists_coverAll_choices (hnodup : (m.coveredBy js is.reverse).Nodup) (u : Nat) :
    ∃ t, (after m js [] u).coverAll (is.flatMap m.choiceColumns) = .ok t ∧
      t.links = .ofCovered m (m.coveredBy js is.reverse) := by
  rw [coveredBy_eq, List.reverse_reverse] at hnodup ⊢
  exact ⟨_, coverAll_after hnodup, rfl⟩

/-- What a trail tells. -/
theorem retraces_onTrail (hjs : js.Nodup) (h : m.IsTrail js is.reverse) (u u' : Nat) :
    Retraces js (after m js [] u) (onTrail m js is.reverse u') is where
  trail := by
    show (is.reverse.map m.node).reverse = is.map m.node
    rw [List.map_reverse, List.reverse_reverse]
  links := exists_coverAll_choices (h.nodup hjs) u
  choice := by
    rintro before i later rfl
    have hsplit : (before ++ i :: later).reverse = later.reverse ++ i :: before.reverse := by simp
    rw [hsplit] at h ⊢
    have hnodup := h.nodup hjs
    obtain ⟨l, hl⟩ := exists_coveredBy_append js later.reverse i before.reverse
    rw [hl] at hnodup
    cases h.of_append with
    | cons hbefore hshortest hi =>
      have hnodup' := hbefore.nodup hjs
      have hnodes := (LinkedMatrix.lacks_ofCovered hnodup').nodesDown (m.columnOf i)
      obtain ⟨t, ht, hlinks⟩ := exists_coverAll_choices hnodup' u
      refine ⟨t, _, ht, ?_, hlinks ▸ hnodes, List.mem_map_of_mem hi, ?_⟩
      · rw [hlinks, LinkedMatrix.shortest?_ofCovered hnodup', hshortest]
        rfl
      · show (LinkedMatrix.ofCovered m
          (m.coveredBy js (later.reverse ++ i :: before.reverse))).nodesDown
            (headerOf (m.columnOf i)) = _
        rw [hl, LinkedMatrix.nodesDown_ofCovered_append hnodup, hnodes]
  apart := by
    rw [chosenRows_onTrail (h.nodup hjs)]
    exact (h.apart hjs).apart
  length_le := by
    have hlength := (h.nodup hjs).length_le_card
    rw [Fintype.card_fin] at hlength
    show js.length + (is.reverse.map m.node).length ≤ m.width
    rw [List.length_map]
    exact (length_le_coveredBy js is.reverse).trans hlength

/-! ## All states of a search -/

/-- **The trail tells the links throughout a search.** From every properly nested state
    and with every visitor, all states between the steps of the search, the first one
    included, are told by the nodes on their trails: the links are those that come from
    the links at the start by covering, for each node in turn, its column and then the
    other columns of its row, around the row to the right; each node lies in the list of
    the column that is chosen at its place on this way, as the list was when the column
    was covered; and no two of the rows have a 1 in the same column, so there are no
    more nodes than columns. The visitor is asked in exactly those descents that begin
    with no column left in the horizontal list. -/
theorem retraces_of_nested {s : Search m.width m.ones.length} (h : Nested m js s) {β : Type}
    (visit : β → List Nat → ForInStep β) (b : β) :
    ∃ later outcome,
      s.Passes visit .descend b later outcome ∧
      s.run visit b = .ok outcome ∧
      ∀ phase t, (phase, t) ∈ (.descend, s) :: later →
        (∃ is, Retraces js s t is) ∧
        (phase = .descend → ∀ b' : β, t.AsksVisitor b' ↔ t.links.activeColumns = .ok []) := by
  have hrun := run_of_nested h visit b
  obtain ⟨later, hpasses, -⟩ := runFor_eq_ok_iff.1 hrun
  refine ⟨later, _, hpasses, hrun, fun phase t ht => ?_⟩
  obtain ⟨hjs, hs⟩ := h.eq_after
  obtain ⟨is, u, rfl, htrail⟩ := h.atTrailEnd_of_passes hpasses (phase, t) ht
  refine ⟨⟨is.reverse, ?_⟩, fun _ b' => ?_⟩
  · rw [← List.reverse_reverse is] at htrail
    have hretraces := retraces_onTrail hjs htrail s.updates u
    rwa [List.reverse_reverse, ← hs] at hretraces
  · rw [asksVisitor_iff]
    exact (LinkedMatrix.activeColumns_eq_nil_iff (htrail.nodup hjs)).symm

/-- The first step in the sample chooses a row, and the node on the trail then tells the
    links. -/
theorem retraces_of_nested_sample :
    ∃ later outcome, (ofMatrix sample).Passes
        (fun count _ => ForInStep.yield (count + 1)) .descend 0 later outcome ∧
      ∃ phase t is, (phase, t) ∈ later ∧ t.trail.length = 1 ∧
        Retraces [] (ofMatrix sample) t is := by
  obtain ⟨later, outcome, hpasses, -, hretraces⟩ :=
    retraces_of_nested (.start : Nested sample [] _) (fun count _ => ForInStep.yield (count + 1)) 0
  have hfirst : (match (ofMatrix sample).step
      (fun count _ => ForInStep.yield (count + 1)) .descend 0 with
    | .ok (.going _ t _) => t.trail.length == 1
    | _ => false) = true := by decide +kernel
  refine ⟨later, outcome, hpasses, ?_⟩
  cases hpasses with
  | ended hstep =>
    rw [hstep] at hfirst
    cases hfirst
  | @going _ phase _ t _ _ later _ hstep _ =>
    rw [hstep] at hfirst
    obtain ⟨⟨is, his⟩, -⟩ := hretraces phase t (List.mem_cons_of_mem _ List.mem_cons_self)
    exact ⟨phase, t, is, List.mem_cons_self, beq_iff_eq.1 hfirst, his⟩

end Search

end ExactCover
