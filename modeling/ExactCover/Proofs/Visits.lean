import ExactCover.Proofs.Safety

/-!
# Which exact covers a search shows, and in which order

Which exact covers there are, and in which order they come, does not depend on the
visitor. So all visitors are shown the same list, and one that is done before the end is
shown the part of it up to that point: a search with a cap reports the first exact
covers, as many as the cap asks for.

The recursion branches on the same column for all exact covers with the same first rows,
and tries the rows of that column from top to bottom. So the exact covers come in
lexicographic order, although the columns that are branched on may be different ones
after different first rows, and although the rows of one exact cover come in the order
of the columns that they are chosen for.

Results:
* `visits_of_nested`: the visits of a search, as those of a list of exact covers.
* `collected_atMost`: what a visitor with a cap keeps.
* `search_cut_short`: what is shown before a search is stopped, by a cap or by any
  visitor.
* `pairwise_covers`: the order in which the recursion lists the exact covers.
* `solutions_increasing`: the order in which they are reported, with any cap.
-/

namespace ExactCover

open BitMatrix

/-! ## A search that is stopped has shown the first exact covers -/

section

variable {m : BitMatrix} {β : Type}

/-! ### The visits to a list of exact covers -/

section

variable {visit : β → List Nat → ForInStep β} {l : List (List Nat)}

/-- The visits when a visitor is shown the members of a list until it is done. -/
def visitsOf (visit : β → List Nat → ForInStep β) : β → List (List Nat) → VisitLog
  | _, [] => []
  | b, rows :: l =>
    match visit b rows with
    | .yield b => (rows, false) :: visitsOf visit b l
    | .done _ => [(rows, true)]

/-- The visits are to the members of `l` in turn, up to the first at which the visitor
    was done, and to all of them if there was none. -/
structure VisitLog.CutFrom (log : VisitLog) (l : List (List Nat)) : Prop where
  shown : log.map Prod.fst <+: l
  last : ∀ seen ∈ log.dropLast, seen.2 = false
  all : ¬ log.Stopped → log.map Prod.fst = l

/-- Puts a log beside an answer. -/
def withLog (log : VisitLog) : ForInStep β → ForInStep (β × VisitLog)
  | .yield b => .yield (b, log)
  | .done b => .done (b, log)

theorem visitsOf_cons_yield {b b' : β} {rows : List Nat} (h : visit b rows = .yield b') :
    visitsOf visit b (rows :: l) = (rows, false) :: visitsOf visit b' l := by
  rw [visitsOf, h]

theorem visitsOf_cons_done {b b' : β} {rows : List Nat} (h : visit b rows = .done b') :
    visitsOf visit b (rows :: l) = [(rows, true)] := by
  rw [visitsOf, h]

theorem foldUntil_noting (l : List (List Nat)) (b : β) (log : VisitLog) :
    foldUntil (noting visit) l (b, log) =
      withLog (log ++ visitsOf visit b l) (foldUntil visit l b) := by
  induction l generalizing b log with
  | nil => simp [foldUntil, visitsOf, withLog]
  | cons rows l ih =>
    cases h : visit b rows with
    | yield b' =>
      have hnoting : noting visit (b, log) rows = .yield (b', log ++ [(rows, false)]) := by
        rw [noting, h]
      rw [foldUntil_cons_yield hnoting, foldUntil_cons_yield h, visitsOf_cons_yield h, ih,
        List.append_assoc, List.singleton_append]
    | done b' =>
      have hnoting : noting visit (b, log) rows = .done (b', log ++ [(rows, true)]) := by
        rw [noting, h]
      rw [foldUntil_cons_done hnoting, foldUntil_cons_done h, visitsOf_cons_done h]
      rfl

theorem stopped_cons_false {rows : List Nat} {log : VisitLog} :
    VisitLog.Stopped ((rows, false) :: log) ↔ log.Stopped := by
  simp [VisitLog.Stopped]

theorem cutFrom_visitsOf (b : β) : (visitsOf visit b l).CutFrom l := by
  induction l generalizing b with
  | nil => exact ⟨⟨[], rfl⟩, by simp [visitsOf], fun _ => rfl⟩
  | cons rows l ih =>
    cases h : visit b rows with
    | yield b' =>
      rw [visitsOf_cons_yield h]
      obtain ⟨⟨rest, hshown⟩, hlast, hall⟩ := ih b'
      refine ⟨⟨rest, ?_⟩, fun seen hseen => ?_, fun hlog => ?_⟩
      · rw [List.map_cons, List.cons_append, hshown]
      · cases hvisits : visitsOf visit b' l with
        | nil => simp [hvisits] at hseen
        | cons next log =>
          rw [hvisits] at hseen hlast
          rcases List.mem_cons.1 hseen with rfl | hseen
          · rfl
          · exact hlast seen hseen
      · rw [List.map_cons, hall (mt stopped_cons_false.2 hlog)]
    | done b' =>
      rw [visitsOf_cons_done h]
      exact ⟨⟨l, rfl⟩, by simp, fun hlog => absurd ⟨rows, by simp⟩ hlog⟩

/-- A visitor that is never done is shown the whole list. -/
theorem map_fst_visitsOf (hvisit : ∀ b rows, ∃ b', visit b rows = .yield b') (b : β) :
    (visitsOf visit b l).map Prod.fst = l := by
  induction l generalizing b with
  | nil => rfl
  | cons rows l ih =>
    obtain ⟨b', h⟩ := hvisit b rows
    rw [visitsOf_cons_yield h, List.map_cons, ih]

end

/-! ### The visits of a search -/

namespace Search

/-- With this visitor the search ends with this outcome after these visits: they are
    what the visitor notes, and noting them changes nothing else. -/
structure Visits {c k : Nat} (s : Search c k) (visit : β → List Nat → ForInStep β) (b : β)
    (outcome : Outcome c k β) (log : VisitLog) : Prop where
  run : s.run visit b = .ok outcome
  noted : s.run (noting visit) (b, []) =
    .ok ⟨outcome.search, (outcome.result, log), outcome.stopped⟩

variable {js : List (Fin m.width)} {s : Search m.width m.ones.length}

/-- A search visits the exact covers of what is not covered, as far as the visitor
    wants. -/
theorem visits_of_nested (h : Nested m js s) (visit : β → List Nat → ForInStep β) (b : β) :
    ∃ outcome,
      s.Visits visit b outcome (visitsOf visit b ((Residual.ofCovered m js).coversFrom [])) ∧
      (outcome.stopped = true ↔
        VisitLog.Stopped (visitsOf visit b ((Residual.ofCovered m js).coversFrom []))) := by
  have hlog : ¬ VisitLog.Stopped [] := fun ⟨_, hmem⟩ => List.not_mem_nil hmem
  have hagree := agree_explore visit (Residual.ofCovered m js) [] hlog b s.updates
  have hrun := run_of_nested h visit b
  have hnoted := run_of_nested h (noting visit) (b, [])
  obtain ⟨work, hexplore⟩ := Residual.explore_eq_foldUntil (noting visit)
    (Residual.ofCovered m js) [] ((b, []), s.updates)
  rw [foldUntil_noting, List.nil_append] at hexplore
  generalize (Residual.ofCovered m js).explore visit [] (b, s.updates) = answer,
    (Residual.ofCovered m js).explore (noting visit) [] ((b, []), s.updates) = noted
    at hagree hrun hnoted hexplore
  generalize visitsOf visit b ((Residual.ofCovered m js).coversFrom []) = log,
    foldUntil visit ((Residual.ofCovered m js).coversFrom []) b = answer' at hexplore ⊢
  cases hagree with
  | yield hstopped =>
    cases answer' with
    | yield b' =>
      cases hexplore
      exact ⟨_, ⟨hrun, hnoted⟩, by simp [outcomeOf, hstopped]⟩
    | done b' => cases hexplore
  | done hstopped =>
    cases answer' with
    | yield b' => cases hexplore
    | done b' =>
      cases hexplore
      exact ⟨_, ⟨hrun, hnoted⟩, by simp [outcomeOf, hstopped]⟩

end Search

/-! ### Caps -/

theorem collect_atMost {count : Nat} (hcount : 0 < count) (found : Array (List Nat))
    (rows : List Nat) : (Cap.atMost count hcount).collect found rows =
      if count ≤ found.size + 1 then .done (found.push rows) else .yield (found.push rows) := by
  simp [Cap.collect]

/-- With a cap, the exact covers are kept until there are enough of them. -/
theorem foldUntil_collect_atMost {count : Nat} (hcount : 0 < count) (l : List (List Nat))
    (found : Array (List Nat)) (hfound : found.size < count) :
    foldUntil (Cap.atMost count hcount).collect l found =
      if count ≤ found.size + l.length then
        .done (found.toList ++ l.take (count - found.size)).toArray
      else .yield (found.toList ++ l).toArray := by
  induction l generalizing found with
  | nil => simp [foldUntil, hfound]
  | cons rows l ih =>
    have hcollect := collect_atMost hcount found rows
    have hlength : found.size + (rows :: l).length = (found.push rows).size + l.length := by
      simp only [List.length_cons, Array.size_push]
      omega
    by_cases hmet : count ≤ found.size + 1
    · rw [if_pos hmet] at hcollect
      have hone : count - found.size = 1 := by omega
      rw [foldUntil_cons_done hcollect, if_pos (by simp only [List.length_cons]; omega), hone]
      simp [← Array.toList_push]
    · rw [if_neg hmet] at hcollect
      have hsucc : count - found.size = (count - (found.push rows).size) + 1 := by
        rw [Array.size_push]
        omega
      rw [foldUntil_cons_yield hcollect, ih (found.push rows) (by rw [Array.size_push]; omega),
        hlength, hsucc]
      simp

/-- A visitor with a cap keeps the first exact covers, and is done if there are as many
    as it asks for. -/
theorem collected_atMost (m : BitMatrix) {count : Nat} (hcount : 0 < count) :
    (collected m (.atMost count hcount)).value.toList =
        ((Residual.whole m).coversFrom []).take count ∧
      (isDone (collected m (.atMost count hcount)) = true ↔
        count ≤ ((Residual.whole m).coversFrom []).length) := by
  unfold collected
  rw [foldUntil_collect_atMost hcount _ _ (by simpa using hcount)]
  simp only [List.size_toArray, List.length_nil, Nat.zero_add, Nat.sub_zero, List.nil_append]
  split
  · next hmet => exact ⟨rfl, by simp [isDone, hmet]⟩
  · next hmet =>
    have hlength : ((Residual.whole m).coversFrom []).length ≤ count := by omega
    exact ⟨(List.take_of_length_le hlength).symm, by simp [isDone, hmet]⟩

variable {α : Type} [Entry α] {rows : List (List α)} {width : Nat}

/-- There are as many exact covers of rows as the recursion lists. -/
theorem encard_coversExactly {m : BitMatrix} (hheight : m.height = rows.length)
    (hwidth : ∀ row ∈ rows, row.length = m.width)
    (hentry : ∀ r (j : Fin m.width), m.entry r j = isOneAt rows r j) :
    {S | CoversExactly rows m.width S}.encard = ((Residual.whole m).coversFrom []).length := by
  have hset : {S | CoversExactly rows m.width S} = {S | (Residual.whole m).Solves S} :=
    Set.ext fun S => coversExactly_iff hheight hwidth hentry
  rw [hset, Residual.encard_solves (Residual.tight_whole m), Residual.coversFrom_eq,
    List.length_map]

/-- With a cap, the first of the exact covers are reported. -/
theorem solve_ofNat_of_ofRows {m : BitMatrix} (hm : ofRows rows = .ok m) {count : Nat}
    (hcount : 0 < count) :
    ∃ report, solve rows (.ofNat count) = .ok report ∧
      report.solutions = ((Residual.whole m).coversFrom []).take count ∧
      (report.stopped = true ↔ count ≤ ((Residual.whole m).coversFrom []).length) := by
  obtain ⟨report, hreport, hsolutions, hstopped⟩ :=
    solve_eq_collected_of_ofRows hm (.atMost count hcount)
  obtain ⟨htake, hdone⟩ := collected_atMost m hcount
  exact ⟨report, by rw [Cap.ofNat_of_pos hcount, hreport], hsolutions.trans htake,
    by rw [hstopped, hdone]⟩

/-- **A search that is stopped has shown the first exact covers.** For rows of one width
    with `N` exact covers and every cap that limits, the search reports the first
    `min count N` of the exact covers that it reports without a cap, and says that the
    cap ended it if and only if there are at least as many as the cap asks for, also
    when there are no more. And from every properly nested state a visitor is shown the
    exact covers that a visitor which is never done is shown, in turn, up to and
    including the first one at which it is done. -/
theorem search_cut_short :
    (∀ {α : Type} [Entry α] {rows : List (List α)} {width : Nat}, rows ≠ [] →
      (∀ row ∈ rows, row.length = width) →
      ∃ (N : Nat) (full : Report),
        {S | CoversExactly rows width S}.encard = N ∧
        solve rows .unlimited = .ok full ∧ full.solutions.length = N ∧ full.stopped = false ∧
        ∀ count, 0 < count → ∃ report,
          solve rows (.ofNat count) = .ok report ∧
          report.solutions = full.solutions.take (min count N) ∧
          (report.stopped = true ↔ count ≤ N)) ∧
    (∀ {m : BitMatrix} {js : List (Fin m.width)} {s : Search m.width m.ones.length},
      Search.Nested m js s →
      ∀ {β γ : Type} (visit : β → List Nat → ForInStep β) (keen : γ → List Nat → ForInStep γ),
        (∀ c rows, ∃ c', keen c rows = .yield c') → ∀ b c,
        ∃ outcome log outcome' log',
          s.Visits visit b outcome log ∧ s.Visits keen c outcome' log' ∧
          log.CutFrom (log'.map Prod.fst) ∧ (outcome.stopped = true ↔ log.Stopped)) := by
  constructor
  · intro α _ rows width hne hwidth
    obtain ⟨m, hm, hheight, rfl, hentry⟩ := exists_ofRows hne hwidth
    obtain ⟨full, hfull, hsolutions, hstopped⟩ := solve_unlimited_of_ofRows hm
    refine ⟨_, full, encard_coversExactly hheight hwidth hentry, hfull, by rw [hsolutions],
      hstopped, fun count hcount => ?_⟩
    obtain ⟨report, hreport, htake, hcap⟩ := solve_ofNat_of_ofRows hm hcount
    exact ⟨report, hreport, by rw [htake, hsolutions, List.take_eq_take_min], hcap⟩
  · intro m js s h β γ visit keen hkeen b c
    obtain ⟨outcome, hvisits, hstopped⟩ := Search.visits_of_nested h visit b
    obtain ⟨outcome', hvisits', -⟩ := Search.visits_of_nested h keen c
    refine ⟨outcome, _, outcome', _, hvisits, hvisits', ?_, hstopped⟩
    rw [map_fst_visitsOf hkeen]
    exact cutFrom_visitsOf b

/-- The first of the two exact covers of the pairs, and a visitor that is done at once
    when the first and the fourth column of the sample are covered. -/
theorem search_cut_short_samples :
    (∃ (N : Nat) (full report : Report),
      {S | CoversExactly pairs 2 S}.encard = N ∧ solve pairs .unlimited = .ok full ∧
      solve pairs (.ofNat 1) = .ok report ∧
      report.solutions = full.solutions.take (min 1 N) ∧ (report.stopped = true ↔ 1 ≤ N)) ∧
    (∃ s outcome log outcome' log', Search.Nested Search.sample [3, 0] s ∧
      s.Visits (fun count _ => ForInStep.done (count + 1)) 0 outcome log ∧
      s.Visits (fun count _ => ForInStep.yield (count + 1)) 0 outcome' log' ∧
      log.CutFrom (log'.map Prod.fst)) := by
  constructor
  · have hne : pairs ≠ [] := by decide
    have hwidth : ∀ row ∈ pairs, row.length = 2 := by decide
    obtain ⟨N, full, hN, hfull, -, -, hcap⟩ := search_cut_short.1 hne hwidth
    obtain ⟨report, hreport, htake, hstopped⟩ := hcap 1 Nat.one_pos
    exact ⟨N, full, report, hN, hfull, hreport, htake, hstopped⟩
  · have hnodup : ([3, 0] : List (Fin Search.sample.width)).Nodup := by decide
    obtain ⟨u, h⟩ := Search.exists_nested hnodup
    obtain ⟨outcome, log, outcome', log', hvisits, hvisits', hcut, -⟩ :=
      search_cut_short.2 h (fun count _ => ForInStep.done (count + 1))
        (fun count _ => ForInStep.yield (count + 1)) (fun count _ => ⟨count + 1, rfl⟩) 0 0
    exact ⟨_, outcome, log, outcome', log', h, hvisits, hvisits', hcut⟩

end

/-! ## The order of the solutions -/

section

/-- The lists have a first place at which they differ, and the first one has the smaller
    member there. -/
def Precedes (l l' : List Nat) : Prop :=
  ∃ common r r' rest rest', l = common ++ r :: rest ∧ l' = common ++ r' :: rest' ∧ r < r'

namespace Precedes

variable {l l' rest rest' : List Nat} {r r' : Nat}

theorem head (h : r < r') : Precedes (r :: rest) (r' :: rest') :=
  ⟨[], r, r', rest, rest', rfl, rfl, h⟩

theorem cons (h : Precedes l l') (r : Nat) : Precedes (r :: l) (r :: l') := by
  obtain ⟨common, a, b, rest, rest', rfl, rfl, hlt⟩ := h
  exact ⟨r :: common, a, b, rest, rest', rfl, rfl, hlt⟩

/-- Neither of the lists begins with the other one. -/
theorem not_isPrefix (h : Precedes l l') : ¬ l <+: l' ∧ ¬ l' <+: l := by
  obtain ⟨common, r, r', rest, rest', rfl, rfl, hlt⟩ := h
  simp only [List.prefix_append_right_inj, List.cons_prefix_cons, not_and]
  exact ⟨fun heq => absurd heq hlt.ne, fun heq => absurd heq hlt.ne'⟩

end Precedes

/-! ### The recursion -/

namespace Residual

variable {m : BitMatrix} {R : Residual m}

/-- The exact covers with one first row come after those with a smaller one, and among
    themselves in the order in which what the row leaves is covered. -/
theorem pairwise_covers (hrows : R.rows.Pairwise (· < ·)) : R.covers.Pairwise Precedes := by
  induction R using choose_induction with
  | none R h =>
    rw [covers_of_none h]
    exact List.pairwise_singleton _ _
  | some R j h ih =>
    rw [covers_of_some h]
    refine List.pairwise_flatMap.2 ⟨fun r hr => ?_, ?_⟩
    · exact List.pairwise_map.2 ((ih r hr (hrows.filter _)).imp fun hlt => hlt.cons r)
    · refine (hrows.filter _).imp fun {r r'} hlt l hl l' hl' => ?_
      obtain ⟨rest, -, rfl⟩ := List.mem_map.1 hl
      obtain ⟨rest', -, rfl⟩ := List.mem_map.1 hl'
      exact Precedes.head hlt

theorem pairwise_coversFrom_whole (m : BitMatrix) :
    ((whole m).coversFrom []).Pairwise Precedes := by
  rw [coversFrom_eq]
  exact List.pairwise_map.2 (pairwise_covers List.pairwise_lt_range)

end Residual

/-! ### What is reported -/

variable {α : Type} [Entry α] {rows : List (List α)} {width : Nat}

/-- With any cap, the first of the exact covers that the recursion lists are
    reported. -/
theorem solutions_isPrefix_of_ofRows {m : BitMatrix} (hm : ofRows rows = .ok m) (cap : Cap) :
    ∃ report, solve rows cap = .ok report ∧
      report.solutions <+: (Residual.whole m).coversFrom [] := by
  cases cap with
  | unlimited =>
    obtain ⟨report, hreport, hsolutions⟩ := solve_of_ofRows hm
    exact ⟨report, hreport, hsolutions ▸ List.prefix_rfl⟩
  | atMost count hcount =>
    obtain ⟨report, hreport, hsolutions, -⟩ := solve_ofNat_of_ofRows hm hcount
    rw [Cap.ofNat_of_pos hcount] at hreport
    exact ⟨report, hreport, hsolutions ▸ List.take_prefix _ _⟩

/-- **The solutions come in lexicographic order.** For rows of one width and every cap,
    of two reported solutions the earlier one has the smaller row at the first place
    where they differ, and neither begins with the other one. The rows of one solution
    need not be ascending. -/
theorem solutions_increasing :
    (∀ {α : Type} [Entry α] {rows : List (List α)} {width : Nat}, rows ≠ [] →
      (∀ row ∈ rows, row.length = width) → ∀ cap, ∃ report,
        solve rows cap = .ok report ∧
        report.solutions.Pairwise fun l l' => Precedes l l' ∧ ¬ l <+: l' ∧ ¬ l' <+: l) ∧
    (∃ (rows : List (List Nat)) (report : Report) (l : List Nat),
      solve rows .unlimited = .ok report ∧ l ∈ report.solutions ∧ ¬ l.Pairwise (· < ·)) := by
  constructor
  · intro α _ rows width hne hwidth cap
    obtain ⟨m, hm, -⟩ := exists_ofRows hne hwidth
    obtain ⟨report, hreport, hprefix⟩ := solutions_isPrefix_of_ofRows hm cap
    have hpairwise := (Residual.pairwise_coversFrom_whole m).sublist hprefix.sublist
    exact ⟨report, hreport, hpairwise.imp fun h => ⟨h, h.not_isPrefix⟩⟩
  · -- The second column is shorter, so the second row is chosen before the first or the last one.
    refine ⟨[[1, 0], [0, 1], [1, 1], [1, 0]], ⟨4, 2, 5, [[1, 0], [1, 3], [2]], 1, false⟩, [1, 0],
      ?_, by decide, by decide⟩
    decide +kernel

/-- Rows with three exact covers, two of which begin with the same row. -/
theorem solutions_increasing_sample :
    ∃ report, solve [[1, 0], [0, 1], [1, 1], [1, 0]] .unlimited = .ok report ∧
      report.solutions.Pairwise fun l l' => Precedes l l' ∧ ¬ l <+: l' ∧ ¬ l' <+: l := by
  have hwidth : ∀ row ∈ [[1, 0], [0, 1], [1, 1], [1, 0]], row.length = 2 := by decide
  exact solutions_increasing.1 (List.cons_ne_nil _ _) hwidth .unlimited

end

end ExactCover
