import ExactCover.Proofs.Frames
import ExactCover.Proofs.Visits
import ExactCover.Proofs.Trails

/-!
# The search ends

The trail grows lexicographically: each time a node is put on it, the positions of the
chosen rows come after those of all trails before. So no list of rows is chosen twice.
As the rows of a trail each have a 1 and have none in common columns, there are no more
choices than lists of such rows, and the search comes to its end.

Results:
* `Moves.ahead`, `Moves.ahead_of_ahead`: a step leads on in lexicographic order.
* `descents_sorted`: all choices of a search are in this order.
* `search_terminates`: a search ends, and how often it puts a node on its trail.
-/

namespace ExactCover

open BitMatrix

/-! ## Lists of rows in lexicographic order -/

theorem lt_concat (rows : List Nat) (r : Nat) : rows < rows ++ [r] := by
  induction rows with
  | nil => exact .nil
  | cons r' rows ih => exact .cons ih

namespace Precedes

variable {l l' l'' : List Nat} {r r' : Nat}

theorem lt (h : Precedes l l') : l < l' := by
  obtain ⟨common, r, r', rest, rest', rfl, rfl, hlt⟩ := h
  exact List.Lex.append_left _ (.rel hlt) common

theorem concat (l : List Nat) (h : r < r') : Precedes (l ++ [r]) (l ++ [r']) :=
  ⟨l, r, r', [], [], rfl, rfl, h⟩

/-- Whatever follows in the first list does not matter. -/
theorem append (h : Precedes l l') (l'' : List Nat) : Precedes (l ++ l'') l' := by
  obtain ⟨common, r, r', rest, rest', rfl, rfl, hlt⟩ := h
  exact ⟨common, r, r', rest ++ l'', rest', by simp, rfl, hlt⟩

theorem trans_lt (h : Precedes l l') (hlt : l' < l'') : Precedes l l'' := by
  obtain ⟨common, r, r', rest, rest', rfl, rfl, hr⟩ := h
  induction common generalizing l'' with
  | nil =>
    cases hlt with
    | cons => exact .head hr
    | rel hr' => exact .head (hr.trans hr')
  | cons a common ih =>
    cases hlt with
    | cons hlt => exact (ih hlt).cons a
    | rel ha => exact .head ha

end Precedes

/-! ## Lists of rows that can be chosen -/

variable {m : BitMatrix} {js : List (Fin m.width)} {is is' : List m.One} {rows : List Nat}

theorem BitMatrix.Apart.nodup (h : m.Apart rows) : rows.Nodup := by
  refine h.apart.imp_of_mem fun {r r'} hr _ hmeets => ?_
  rintro rfl
  obtain ⟨j, hj⟩ := h.ones r hr
  exact absurd hj (Bool.eq_false_iff.1 (Residual.meets_eq_false.1 hmeets j hj))

/-- There are only finitely many lists of rows without common columns. -/
theorem finite_apart (m : BitMatrix) : {rows | m.Apart rows}.Finite := by
  refine (Set.finite_range fun l : { l : List (Fin m.height) // l.Nodup } =>
    l.1.map Fin.val).subset fun rows h => ?_
  have hlt : ∀ r ∈ rows, r < m.height := fun r hr =>
    let ⟨_, hj⟩ := h.ones r hr
    lt_height_of_entry hj
  have hmap : (rows.attach.map fun r => (⟨r.1, hlt r.1 r.2⟩ : Fin m.height)).map Fin.val =
      rows := by
    rw [List.map_map]
    exact List.attach_map_subtype_val rows
  exact ⟨⟨_, List.Nodup.of_map _ (hmap ▸ h.nodup)⟩, hmap⟩

namespace Search

variable {β : Type} {visit : β → List Nat → ForInStep β} {b : β} {u : Nat} {phase phase' : Phase}

/-! ## Where a search leads -/

/-- The rows are chosen after a trail with the given rows has been reached: they come
    after it, and if the search backtracks from there, after all that begins with it. -/
def Ahead : Phase → List Nat → List Nat → Prop
  | .descend, given, rows => given < rows
  | .backtrack, given, rows => Precedes given rows

theorem Ahead.ne_nil {given : List Nat} (h : Ahead phase given rows) : rows ≠ [] := by
  have hlt : given < rows := by
    cases phase with
    | descend => exact h
    | backtrack => exact Precedes.lt h
  rintro rfl
  exact List.not_lt_nil given hlt

/-- The next row of a column is a later one. -/
theorem rowOf_lt_of_standing {gone : List m.One} {j : Fin m.width} {i i' : m.One}
    {xs ys : List m.One} (hstanding : m.standing gone j = xs ++ i :: i' :: ys) :
    m.rowOf i < m.rowOf i' := by
  have hcolumn : ∀ i ∈ m.standing gone j, m.columnOf i = j := fun i hi => (mem_standing.1 hi).1
  have hsorted : (m.standing gone j).Pairwise (· < ·) := (pairwise_onesInColumn j).filter _
  rw [hstanding] at hcolumn hsorted
  have hlt : i < i' := by
    have hright := (List.pairwise_append.1 hsorted).2.1
    exact (List.pairwise_cons.1 hright).1 i' List.mem_cons_self
  exact rowOf_lt_of_lt hlt ((hcolumn i (by simp)).trans (hcolumn i' (by simp)).symm)

/-- A choice leads on. -/
theorem Moves.ahead (hmoves : Moves m js phase is .descend is') :
    Ahead phase (m.trailRows is) (m.trailRows is') := by
  cases hmoves with
  | @choose i is rest _ _ =>
    rw [trailRows_cons]
    exact lt_concat _ _
  | replace hstanding =>
    rw [trailRows_cons, trailRows_cons]
    exact Precedes.concat _ (rowOf_lt_of_standing hstanding)

/-- What lies ahead after a step lay ahead before. -/
theorem Moves.ahead_of_ahead (hmoves : Moves m js phase is phase' is')
    (h : Ahead phase' (m.trailRows is') rows) : Ahead phase (m.trailRows is) rows := by
  cases hmoves with
  | choose hshortest hstanding =>
    exact lt_trans (Moves.ahead (.choose hshortest hstanding)) h
  | leave => exact Precedes.lt h
  | replace hstanding => exact Precedes.trans_lt (Moves.ahead (.replace hstanding)) h
  | takeBack =>
    rw [trailRows_cons]
    exact Precedes.append h _

/-! ## The choices of a search -/

section

variable {c k : Nat}

/-- The rows that are chosen whenever the search descends again. -/
def descents (later : List (Phase × Search c k)) : List (List Nat) :=
  (later.filter (·.1 = .descend)).map (·.2.chosenRows)

theorem descents_descend (s : Search c k) (later : List (Phase × Search c k)) :
    descents ((.descend, s) :: later) = s.chosenRows :: descents later := rfl

theorem descents_backtrack (s : Search c k) (later : List (Phase × Search c k)) :
    descents ((.backtrack, s) :: later) = descents later := rfl

end

/-- All choices of a search lie ahead of where it is, in lexicographic order, and are of
    rows without common columns. -/
theorem descents_sorted (hjs : js.Nodup) {s : Search m.width m.ones.length}
    {later : List (Phase × Search m.width m.ones.length)}
    {outcome : Outcome m.width m.ones.length β} (hpasses : s.Passes visit phase b later outcome)
    (hs : s = onTrail m js is u) (htrail : m.IsTrail js is) :
    (descents later).Pairwise (· < ·) ∧
      ∀ rows ∈ descents later, Ahead phase (m.trailRows is) rows ∧ m.Apart rows := by
  induction hpasses generalizing is u with
  | ended => exact ⟨List.Pairwise.nil, by simp [descents]⟩
  | @going phase phase' _ _ b _ _ _ hstep _ ih =>
    subst hs
    rcases step_onTrail hjs htrail visit phase u b with
      ⟨_, hended⟩ | ⟨_, is', u', _, hmoves, hgoing⟩
    · rw [hended] at hstep
      cases hstep
    · rw [hgoing] at hstep
      cases hstep
      have htrail' := hmoves.isTrail htrail
      obtain ⟨hsorted, hahead⟩ := ih rfl htrail'
      cases phase' with
      | descend =>
        have hrows : (onTrail m js is' u').chosenRows = m.trailRows is' :=
          chosenRows_onTrail (htrail'.nodup hjs)
        rw [descents_descend, hrows]
        refine ⟨List.pairwise_cons.2 ⟨fun rows hrows => (hahead rows hrows).1, hsorted⟩, ?_⟩
        intro rows hrows
        rcases List.mem_cons.1 hrows with rfl | hrows
        · exact ⟨hmoves.ahead, htrail'.apart hjs⟩
        · exact ⟨hmoves.ahead_of_ahead (hahead rows hrows).1, (hahead rows hrows).2⟩
      | backtrack =>
        rw [descents_backtrack]
        exact ⟨hsorted, fun rows hrows =>
          ⟨hmoves.ahead_of_ahead (hahead rows hrows).1, (hahead rows hrows).2⟩⟩

/-- No list of rows is chosen twice, so there are no more choices than such lists. -/
theorem length_descents_le (hjs : js.Nodup) {later : List (Phase × Search m.width m.ones.length)}
    {outcome : Outcome m.width m.ones.length β}
    (hpasses : (after m js [] u).Passes visit .descend b later outcome) :
    (descents later).length ≤ {rows | rows ≠ [] ∧ m.Apart rows}.ncard := by
  have hstart : after m js [] u = onTrail m js [] u := rfl
  obtain ⟨hsorted, hahead⟩ := descents_sorted hjs hpasses hstart .nil
  have hnodup : (descents later).Nodup := hsorted.imp ne_of_lt
  have hfinite : {rows | rows ≠ [] ∧ m.Apart rows}.Finite :=
    (finite_apart m).subset fun _ h => h.2
  rw [← List.toFinset_card_of_nodup hnodup, ← Set.ncard_coe_finset]
  refine Set.ncard_le_ncard (fun rows hrows => ?_) hfinite
  have hrows := List.mem_toFinset.1 (Finset.mem_coe.1 hrows)
  exact ⟨(hahead rows hrows).1.ne_nil, (hahead rows hrows).2⟩

end Search

/-! ## Loops with a bound -/

/-- A scan that has ended does so within any greater number of columns. -/
theorem LinkedMatrix.shortestFrom_mono {c k fuel fuel' : Nat} {L : LinkedMatrix c k} {h : Header c}
    {best result : Option (Header c)} (hfuel : fuel ≤ fuel')
    (hscan : L.shortestFrom fuel h best = .ok result) :
    L.shortestFrom fuel' h best = .ok result := by
  induction fuel generalizing h best fuel' with
  | zero =>
    rw [shortestFrom] at hscan
    split at hscan
    · next hh => cases fuel' <;> rw [shortestFrom, if_pos hh] <;> exact hscan
    · cases hscan
  | succ fuel ih =>
    obtain ⟨fuel', rfl⟩ := Nat.exists_eq_succ_of_ne_zero (Nat.ne_zero_of_lt hfuel)
    rw [shortestFrom] at hscan ⊢
    split at hscan
    · next hh => rw [if_pos hh]; exact hscan
    · next hh =>
      rw [if_neg hh]
      split at hscan
      · next hsize => rw [if_pos hsize]; exact hscan
      · next hsize =>
        rw [if_neg hsize]
        exact ih (Nat.le_of_succ_le_succ hfuel) hscan

/-- **The search ends.** From every properly nested state and with every visitor, the
    search comes to its end in finitely many steps, all of them without a fault, and to
    the same end whenever it is allowed that many steps or more. It puts a node on its
    trail at most as often as there are lists of one or more rows, each with a 1 and no
    two with a 1 in the same column. These are the steps after which it descends again:
    a step puts one node on the trail if the search descends next, and none otherwise.
    The walks along the lists and the scan of the columns that the steps are made of
    come to their ends by themselves too, as they return the same if they are allowed to
    go on for longer. -/
theorem search_terminates :
    (∀ {m : BitMatrix} {js : List (Fin m.width)} {s : Search m.width m.ones.length},
      Search.Nested m js s → ∀ {β : Type} (visit : β → List Nat → ForInStep β) (b : β),
        ∃ later outcome,
          s.Passes visit .descend b later outcome ∧
          s.run visit b = .ok outcome ∧
          (∀ fuel, later.length < fuel → s.runFor visit fuel .descend b = .ok outcome) ∧
          (Search.descents later).length ≤ {rows | rows ≠ [] ∧ m.Apart rows}.ncard) ∧
    (∀ {c k : Nat} {β : Type} (visit : β → List Nat → ForInStep β) (phase phase' : Search.Phase)
      (s t : Search c k) (b b' : β), s.step visit phase b = .ok (.going phase' t b') →
        (phase' = .descend ∧ ∃ p, t.trail = p :: s.openTrail phase) ∨
          (phase' = .backtrack ∧ t.trail = s.openTrail phase)) ∧
    (∀ {n : Nat} {σ : Type} (next : σ → Fin n → Fin n) (visit : σ → Fin n → Except Fault σ)
      (start : Fin n) (s t : σ), walk next visit start s = .ok t →
        ∀ fuel, n ≤ fuel → walkOn next visit start fuel (next s start) s = .ok t) ∧
    (∀ {c k : Nat} (L : LinkedMatrix c k) (best : Option (Header c)), L.shortest? = .ok best →
        ∀ fuel, c + 1 ≤ fuel → L.shortestFrom fuel (L.horizontal.next root) none = .ok best) := by
  refine ⟨fun {m js s} h β visit b => ?_, fun _ _ _ _ _ _ _ hstep => Search.trail_of_step hstep,
    fun _ _ _ _ _ hwalk _ hfuel => walkOn_mono hfuel hwalk,
    fun _ _ hscan _ hfuel => LinkedMatrix.shortestFrom_mono hfuel hscan⟩
  obtain ⟨hjs, hs⟩ := h.eq_after
  have hrun := Search.run_of_nested h visit b
  obtain ⟨later, hpasses, hlength⟩ := Search.runFor_eq_ok_iff.1 hrun
  refine ⟨later, _, hpasses, hrun, fun fuel hfuel => ?_, ?_⟩
  · exact Search.runFor_eq_ok_iff.2 ⟨later, hpasses, hfuel⟩
  · rw [hs] at hpasses
    exact Search.length_descents_le hjs hpasses

/-- The sample with one column covered, and a visitor that goes on after the exact cover
    that it is shown; the first step in the sample, a walk around three positions, and
    the scan of all columns of the sample. -/
theorem search_terminates_sample :
    (∃ s later outcome, Search.Nested Search.sample [0] s ∧
      s.Passes (fun count _ => ForInStep.yield (count + 1)) .descend 0 later outcome ∧
      s.run (fun count _ => ForInStep.yield (count + 1)) 0 = .ok outcome ∧
      outcome.result = 1 ∧
      (Search.descents later).length ≤ {rows | rows ≠ [] ∧ Search.sample.Apart rows}.ncard) ∧
    (∃ phase t count, (Search.ofMatrix Search.sample).step
        (fun count _ => ForInStep.yield (count + 1)) .descend 0 = .ok (.going phase t count) ∧
      ((phase = .descend ∧ ∃ p, t.trail = [p]) ∨ (phase = .backtrack ∧ t.trail = []))) ∧
    walkOn (fun _ => (Rings.cycle 2).next) (fun visited p => .ok (p :: visited)) 0 5 1 [] =
      .ok [2, 1] ∧
    (LinkedMatrix.ofMatrix Search.sample).shortestFrom 9 1 none = .ok (some (headerOf 0)) := by
  refine ⟨?_, ?_, ?_, ?_⟩
  · obtain ⟨s, h, hresult⟩ := Search.exists_nested_sample
    obtain ⟨later, outcome, hpasses, hrun, -, hle⟩ :=
      search_terminates.1 h (fun count _ => ForInStep.yield (count + 1)) 0
    rw [hrun] at hresult
    exact ⟨s, later, outcome, h, hpasses, hrun, Except.ok.inj hresult, hle⟩
  · have hgoing : (match (Search.ofMatrix Search.sample).step
        (fun count _ => ForInStep.yield (count + 1)) .descend 0 with
      | .ok (.going ..) => true
      | _ => false) = true := by decide +kernel
    split at hgoing
    · next phase t count hstep =>
      exact ⟨phase, t, count, hstep, search_terminates.2.1 _ _ _ _ _ _ _ hstep⟩
    · cases hgoing
  · exact search_terminates.2.2.1 (fun _ => (Rings.cycle 2).next)
      (fun visited p => .ok (p :: visited)) 0 [] [2, 1] (by decide +kernel) 5 (by decide)
  · exact search_terminates.2.2.2 (LinkedMatrix.ofMatrix Search.sample) _ (by decide +kernel) 9
      (by decide)

end ExactCover
