import ExactCover.Proofs.NestedLists
import ExactCover.Proofs.Solving

/-!
# How a search ends

However a search ends, all that it covered is uncovered again: step by step when every
choice has been reconsidered, or at once when the visitor is done. So a search can be
run from any properly nested state, and the state can be used afterwards. To say which
visits there were, the visitor is made to note them.

Every operation on the links checks what it can before it changes anything, and the
search stops with a fault if a check fails. None ever does: the links of a properly
nested state determine what each check reads, and every state that a search passes
through is one of these, with the rows on the trail chosen on top of it. What is left to
go wrong is the shape of the input, which is checked before any link is made.

Results:
* `agree_explore`: noting the visits changes nothing else.
* `run_restores`: what a search leaves behind.
* `solve_of_refused`: rows that do not form a matrix are refused for their shape.
* `search_cannot_fail`: every input is refused for its shape or searched to a report,
  and every search from a properly nested state comes to its end with no fault.
-/

namespace ExactCover

open BitMatrix

/-! ## A search leaves the links as it found them -/

section

/-- The visits of a search: the rows that were shown, and whether the visitor was done
    then. -/
abbrev VisitLog := List (List Nat × Bool)

variable {m : BitMatrix} {β : Type} {visit : β → List Nat → ForInStep β} {log : VisitLog}

/-- The visitor that answers as another one does, and notes its answers. -/
def noting (visit : β → List Nat → ForInStep β) :
    β × VisitLog → List Nat → ForInStep (β × VisitLog)
  | (b, log), rows =>
    match visit b rows with
    | .yield b => .yield (b, log ++ [(rows, false)])
    | .done b => .done (b, log ++ [(rows, true)])

/-- Whether the visitor was done at some visit. -/
def VisitLog.Stopped (log : VisitLog) : Prop := ∃ rows, (rows, true) ∈ log

/-- The same answer with and without a log, which shows whether the visitor was done. -/
inductive Agree : ForInStep (β × Nat) → ForInStep ((β × VisitLog) × Nat) → Prop
  | yield {b : β} {u : Nat} {log : VisitLog} (h : ¬ log.Stopped) :
      Agree (.yield (b, u)) (.yield ((b, log), u))
  | done {b : β} {u : Nat} {log : VisitLog} (h : log.Stopped) :
      Agree (.done (b, u)) (.done ((b, log), u))

theorem stopped_concat {rows : List Nat} {stop : Bool} :
    VisitLog.Stopped (log ++ [(rows, stop)]) ↔ log.Stopped ∨ stop = true := by
  simp only [VisitLog.Stopped, List.mem_append, List.mem_singleton, Prod.mk.injEq, exists_or]
  exact or_congr_right ⟨fun ⟨_, _, h⟩ => h.symm, fun h => ⟨rows, rfl, h.symm⟩⟩

theorem agree_noting (hlog : ¬ log.Stopped) (b : β) (u : Nat) (rows : List Nat) :
    Agree (Residual.withWork u (visit b rows))
      (Residual.withWork u (noting visit (b, log) rows)) := by
  rw [noting]
  cases visit b rows with
  | yield b =>
    apply Agree.yield
    intro h
    rcases stopped_concat.1 h with h | h
    · exact hlog h
    · cases h
  | done b => exact .done (stopped_concat.2 (.inr rfl))

theorem agree_foldUntil {f : β × Nat → Nat → ForInStep (β × Nat)}
    {g : (β × VisitLog) × Nat → Nat → ForInStep ((β × VisitLog) × Nat)} {rows : List Nat}
    (hstep : ∀ r ∈ rows, ∀ b u log, ¬ VisitLog.Stopped log → Agree (f (b, u) r) (g ((b, log), u) r))
    (hlog : ¬ log.Stopped) (b : β) (u : Nat) :
    Agree (foldUntil f rows (b, u)) (foldUntil g rows ((b, log), u)) := by
  induction rows generalizing b u log with
  | nil => exact .yield hlog
  | cons r rows ih =>
    have hr := hstep r List.mem_cons_self b u log hlog
    rw [foldUntil, foldUntil]
    generalize f (b, u) r = answer, g ((b, log), u) r = noted at hr ⊢
    cases hr with
    | yield hlog => exact ih (fun r hr => hstep r (List.mem_cons_of_mem _ hr)) hlog _ _
    | done hlog => exact .done hlog

/-- Noting the visits changes neither the answer nor the work. -/
theorem agree_explore (visit : β → List Nat → ForInStep β) (R : Residual m) (chosen : List Nat)
    (hlog : ¬ log.Stopped) (b : β) (u : Nat) :
    Agree (R.explore visit chosen (b, u)) (R.explore (noting visit) chosen ((b, log), u)) := by
  induction R using Residual.choose_induction generalizing chosen log b u with
  | none R h =>
    rw [Residual.explore_of_none h, Residual.explore_of_none h]
    exact agree_noting hlog b u chosen
  | some R j h ih =>
    rw [Residual.explore_of_some h, Residual.explore_of_some h]
    exact agree_foldUntil
      (fun r hr b u log hlog => ih r hr (chosen ++ [r]) hlog b (u + R.effort j r)) hlog b _

namespace Search

variable {js : List (Fin m.width)}

/-- **Every search leaves the links exactly as it found them.** From every properly
    nested state, with whatever columns covered, and for every visitor the search ends
    without a fault, all links and sizes are those from before, and no choice is left on
    the trail. The search says that it was stopped if and only if the visitor was done
    at some visit; the visits are those that are noted when the visitor notes them,
    which changes nothing else. -/
theorem run_restores {s : Search m.width m.ones.length} (h : Nested m js s)
    (visit : β → List Nat → ForInStep β) (result : β) :
    ∃ outcome log,
      s.run visit result = .ok outcome ∧
      outcome.search.links = s.links ∧
      outcome.search.trail = [] ∧
      s.run (noting visit) (result, []) =
        .ok ⟨outcome.search, (outcome.result, log), outcome.stopped⟩ ∧
      (outcome.stopped = true ↔ VisitLog.Stopped log) := by
  obtain ⟨hnodup, hs⟩ := h.eq_after
  have hlog : ¬ VisitLog.Stopped [] := fun ⟨_, hmem⟩ => List.not_mem_nil hmem
  have hagree := agree_explore visit (Residual.ofCovered m js) [] hlog result s.updates
  rw [hs, run_after hnodup, run_after hnodup]
  generalize (Residual.ofCovered m js).explore visit [] (result, s.updates) = answer,
    (Residual.ofCovered m js).explore (noting visit) [] ((result, []), s.updates) = noted
    at hagree ⊢
  cases hagree with
  | yield hlog => exact ⟨_, _, rfl, rfl, rfl, rfl, by simp [outcomeOf, hlog]⟩
  | done hlog => exact ⟨_, _, rfl, rfl, rfl, rfl, by simp [outcomeOf, hlog]⟩

/-- With the first column of the sample covered, a search chooses rows and comes to one
    exact cover. -/
theorem exists_nested_sample :
    ∃ s, Nested sample [0] s ∧
      (s.run (fun count _ => ForInStep.yield (count + 1)) 0).map (·.result) = .ok 1 := by
  have hresult : ((ofMatrix sample).cover (headerOf 0) >>= fun s =>
      (s.run (fun count _ => ForInStep.yield (count + 1)) 0).map (·.result)) = .ok 1 := by
    decide +kernel
  obtain ⟨s, hcover, h⟩ := (Nested.start : Nested sample [] _).exists_cover (j := 0) (by simp)
  rw [hcover] at hresult
  exact ⟨s, h, hresult⟩

/-- A search with the first column covered, which the visitor ends at once. -/
theorem run_restores_sample :
    ∃ s outcome, Nested sample [0] s ∧
      s.run (fun count _ => ForInStep.done (count + 1)) 0 = .ok outcome ∧
      outcome.search.links = s.links ∧ outcome.search.trail = [] := by
  have hnodup : ([0] : List (Fin sample.width)).Nodup := by decide
  obtain ⟨u, h⟩ := exists_nested hnodup
  obtain ⟨outcome, -, hrun, hlinks, htrail, -⟩ :=
    run_restores h (fun count _ => ForInStep.done (count + 1)) 0
  exact ⟨_, outcome, h, hrun, hlinks, htrail⟩

end Search

end

/-! ## The search cannot fail -/

section

variable {α : Type} [Entry α] {rows : List (List α)}

theorem solve_of_refused {cause : ShapeError} (h : ofRows rows = .error cause) (cap : Cap) :
    solve rows cap = .error (.refused (.invalidMatrixShape cause)) := by
  unfold solve
  rw [h]
  rfl

/-- Rows are searched to a report if and only if they form a matrix. -/
theorem exists_solve_iff (rows : List (List α)) (cap : Cap) :
    (∃ report, solve rows cap = .ok report) ↔
      rows ≠ [] ∧ ∃ width, ∀ row ∈ rows, row.length = width := by
  constructor
  · rintro ⟨report, hreport⟩
    cases hrows : ofRows rows with
    | error cause =>
      rw [solve_of_refused hrows] at hreport
      cases hreport
    | ok m =>
      obtain ⟨hne, hwidth⟩ := width_of_ofRows hrows
      exact ⟨hne, m.width, hwidth⟩
  · rintro ⟨hne, width, hwidth⟩
    obtain ⟨m, hm, -⟩ := exists_ofRows hne hwidth
    obtain ⟨report, hreport, -⟩ := solve_eq_collected_of_ofRows hm cap
    exact ⟨report, hreport⟩

/-- **The search cannot fail.** Whatever rows are given, of any entries, and whatever
    the cap, they are searched to a report if they form a matrix, and otherwise refused
    for their shape; no fault is ever reported. And from every properly nested state,
    with every visitor, a search ends with no fault and an empty trail: no column that
    it covers is covered already, none that it uncovers is still attached, no node is
    taken out of a list that is counted as empty, no list with nodes is counted as
    empty, and every walk comes back to its start. As each link is a position of its own
    table by its type, none leads out of it. -/
theorem search_cannot_fail :
    (∀ {α : Type} [Entry α] (rows : List (List α)) (cap : Cap),
      ((∃ report, solve rows cap = .ok report) ∨
        ∃ cause, solve rows cap = .error (.refused (.invalidMatrixShape cause))) ∧
      ((∃ report, solve rows cap = .ok report) ↔
        rows ≠ [] ∧ ∃ width, ∀ row ∈ rows, row.length = width)) ∧
    (∀ {m : BitMatrix} {js : List (Fin m.width)} {s : Search m.width m.ones.length},
      Search.Nested m js s → ∀ {β : Type} (visit : β → List Nat → ForInStep β) (b : β),
        ∃ outcome, s.run visit b = .ok outcome ∧ outcome.search.trail = []) := by
  constructor
  · intro α _ rows cap
    refine ⟨?_, exists_solve_iff rows cap⟩
    cases hrows : ofRows rows with
    | error cause => exact .inr ⟨cause, solve_of_refused hrows cap⟩
    | ok m =>
      obtain ⟨report, hreport, -⟩ := solve_eq_collected_of_ofRows hrows cap
      exact .inl ⟨report, hreport⟩
  · intro m js s h β visit b
    refine ⟨_, Search.run_of_nested h visit b, ?_⟩
    cases (Residual.ofCovered m js).explore visit [] (b, s.updates) <;> rfl

/-- The sample with one column covered is searched without a fault, and its exact cover
    is visited. -/
theorem search_cannot_fail_sample :
    (∃ report, solve pairs .unlimited = .ok report) ∧
    ∃ s outcome, Search.Nested Search.sample [0] s ∧
      s.run (fun count _ => ForInStep.yield (count + 1)) 0 = .ok outcome ∧
      outcome.search.trail = [] ∧ outcome.result = 1 := by
  obtain ⟨s, h, hresult⟩ := Search.exists_nested_sample
  obtain ⟨outcome, hrun, htrail⟩ :=
    search_cannot_fail.2 h (fun count _ => ForInStep.yield (count + 1)) 0
  rw [hrun] at hresult
  have hpairs : pairs ≠ [] ∧ ∃ width, ∀ row ∈ pairs, row.length = width := ⟨by decide, 2, by decide⟩
  exact ⟨(search_cannot_fail.1 pairs .unlimited).2.2 hpairs, s, outcome, h, hrun, htrail,
    Except.ok.inj hresult⟩

end

end ExactCover
