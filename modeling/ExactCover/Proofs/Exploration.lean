import ExactCover.Residual

/-!
# Exploring what is left of a matrix

`Residual.explore` follows the recursion of `Residual.covers`, but shows each exact
cover to a visitor as soon as it is complete, adds up the work on the way, and stops
when the visitor is done. It is what the search does, said without links, trails and
steps.

Results:
* `explore_eq_foldUntil`: the visitor is shown the exact covers one after another until
  it is done.
* `explore_addWork`: the work that has been done before is only added.
* `explore_mapAnswer`: visitors that correspond are shown the same, and their answers
  correspond.
* `treeSize_le`: how many residual problems there are at most.
-/

namespace ExactCover

/-! ## Folds that may stop -/

section

variable {α β γ : Type}

/-- Folds a list from the left until a step answers `done`. -/
def foldUntil (f : β → α → ForInStep β) : List α → β → ForInStep β
  | [], b => .yield b
  | a :: l, b =>
    match f b a with
    | .yield b => foldUntil f l b
    | .done b => .done b

theorem foldUntil_cons_yield {f : β → α → ForInStep β} {a : α} {l : List α} {b b' : β}
    (h : f b a = .yield b') : foldUntil f (a :: l) b = foldUntil f l b' := by
  rw [foldUntil, h]

theorem foldUntil_cons_done {f : β → α → ForInStep β} {a : α} {l : List α} {b b' : β}
    (h : f b a = .done b') : foldUntil f (a :: l) b = .done b' := by
  rw [foldUntil, h]

theorem foldUntil_append (f : β → α → ForInStep β) (l l' : List α) (b : β) :
    foldUntil f (l ++ l') b =
      match foldUntil f l b with
      | .yield b => foldUntil f l' b
      | .done b => .done b := by
  induction l generalizing b with
  | nil => rfl
  | cons a l ih =>
    cases h : f b a with
    | yield b' => rw [List.cons_append, foldUntil_cons_yield h, foldUntil_cons_yield h, ih]
    | done b' => rw [List.cons_append, foldUntil_cons_done h, foldUntil_cons_done h]

theorem foldUntil_map (f : β → α → ForInStep β) (g : γ → α) (l : List γ) (b : β) :
    foldUntil f (l.map g) b = foldUntil (fun b c => f b (g c)) l b := by
  induction l generalizing b with
  | nil => rfl
  | cons c l ih => simp only [List.map_cons, foldUntil, ih]

theorem foldUntil_congr {f g : β → α → ForInStep β} {l : List α} (h : ∀ a ∈ l, ∀ b, f b a = g b a)
    (b : β) : foldUntil f l b = foldUntil g l b := by
  induction l generalizing b with
  | nil => rfl
  | cons a l ih =>
    have hrest := ih fun a ha => h a (List.mem_cons_of_mem _ ha)
    simp only [foldUntil, h a List.mem_cons_self, hrest]

/-- Applies a function to the value of an answer. -/
def mapAnswer (g : β → γ) : ForInStep β → ForInStep γ
  | .yield b => .yield (g b)
  | .done b => .done (g b)

/-- Folds whose steps correspond under a function on their values correspond as a
    whole. -/
theorem foldUntil_mapAnswer {g : β → γ} {f : β → α → ForInStep β} {f' : γ → α → ForInStep γ}
    {l : List α} (h : ∀ a ∈ l, ∀ b, f' (g b) a = mapAnswer g (f b a)) (b : β) :
    foldUntil f' l (g b) = mapAnswer g (foldUntil f l b) := by
  induction l generalizing b with
  | nil => rfl
  | cons a l ih =>
    have ha := h a List.mem_cons_self b
    cases hf : f b a with
    | yield b' =>
      rw [hf] at ha
      rw [foldUntil_cons_yield hf, foldUntil_cons_yield ha]
      exact ih (fun a ha => h a (List.mem_cons_of_mem _ ha)) b'
    | done b' =>
      rw [hf] at ha
      rw [foldUntil_cons_done hf, foldUntil_cons_done ha]
      rfl

theorem foldUntil_attach (f : β → α → ForInStep β) (l : List α) (b : β) :
    foldUntil (fun b (a : { a // a ∈ l }) => f b a.1) l.attach b = foldUntil f l b := by
  rw [← foldUntil_map f Subtype.val, List.attach_map_subtype_val]

theorem flatMap_attach (f : α → List β) (l : List α) :
    (l.attach.flatMap fun (a : { a // a ∈ l }) => f a.1) = l.flatMap f := by
  rw [← List.flatMap_map Subtype.val f, List.attach_map_subtype_val]

end

namespace Residual

open BitMatrix

variable {m : BitMatrix} {R : Residual m} {j : Fin m.width} {β : Type}

/-- What holds where no column is left, and of a problem if it holds of what every
    candidate of its shortest column leaves, holds of every problem. -/
@[elab_as_elim] theorem choose_induction {motive : Residual m → Prop}
    (none : ∀ R, R.shortest? = none → motive R)
    (some : ∀ R j, R.shortest? = some j → (∀ r ∈ R.candidates j, motive (R.choose r)) → motive R)
    (R : Residual m) : motive R := by
  induction h : R.columns.length using Nat.strong_induction_on generalizing R with
  | _ n ih =>
    cases hshortest : R.shortest? with
    | none => exact none R hshortest
    | some j =>
      apply some R j hshortest
      intro r hr
      exact ih _ (h ▸ columns_choose_lt hshortest hr) (R.choose r) rfl

/-! ## Exploring -/

/-- Puts the work that has been done beside an answer. -/
def withWork (work : Nat) : ForInStep β → ForInStep (β × Nat)
  | .yield b => .yield (b, work)
  | .done b => .done (b, work)

/-- Shows the exact covers of what is left to a visitor until it is done, each after the
    rows that are already chosen, and adds the work of it to the work that has been
    done. -/
def explore (visit : β → List Nat → ForInStep β) (R : Residual m) (chosen : List Nat)
    (state : β × Nat) : ForInStep (β × Nat) :=
  match _hshortest : R.shortest? with
  | none => withWork state.2 (visit state.1 chosen)
  | some j =>
    foldUntil
      (fun state ⟨r, _⟩ =>
        (R.choose r).explore visit (chosen ++ [r]) (state.1, state.2 + R.effort j r))
      (R.candidates j).attach (state.1, state.2 + ((R.candidates j).map (excess m)).sum)
termination_by R.columns.length
decreasing_by exact columns_choose_lt ‹_› ‹_›

/-- Explores what each of the rows leaves when it is chosen for column `j`. -/
def exploreEach (visit : β → List Nat → ForInStep β) (R : Residual m) (chosen : List Nat)
    (j : Fin m.width) (rows : List Nat) (state : β × Nat) : ForInStep (β × Nat) :=
  foldUntil
    (fun state r => (R.choose r).explore visit (chosen ++ [r]) (state.1, state.2 + R.effort j r))
    rows state

/-- The exact covers of what is left, each after the rows that are already chosen: where
    no column is left the chosen rows are one, and otherwise each candidate of the
    leftmost of the shortest columns is chosen in turn. -/
def coversFrom (R : Residual m) (chosen : List Nat) : List (List Nat) :=
  match _hshortest : R.shortest? with
  | none => [chosen]
  | some j =>
    (R.candidates j).attach.flatMap fun ⟨r, _⟩ => (R.choose r).coversFrom (chosen ++ [r])
termination_by R.columns.length
decreasing_by exact columns_choose_lt ‹_› ‹_›

/-- The number of residual problems that are met. -/
def treeSize (R : Residual m) : Nat :=
  match _hshortest : R.shortest? with
  | none => 1
  | some j => 1 + ((R.candidates j).attach.map fun ⟨r, _⟩ => (R.choose r).treeSize).sum
termination_by R.columns.length
decreasing_by exact columns_choose_lt ‹_› ‹_›

section

variable {γ : Type} {onNone : γ} {onSome : ∀ j, R.shortest? = some j → γ}

/-- Where no column is left, a recursion over what is left ends. -/
theorem match_shortest?_of_none (h : R.shortest? = none) :
    (match hshortest : R.shortest? with
      | none => onNone
      | some j => onSome j hshortest) = onNone := by
  split
  · rfl
  · next h' => rw [h] at h'; cases h'

/-- Otherwise it goes on with the shortest column. -/
theorem match_shortest?_of_some (h : R.shortest? = some j) :
    (match hshortest : R.shortest? with
      | none => onNone
      | some j => onSome j hshortest) = onSome j h := by
  split
  · next h' => rw [h] at h'; cases h'
  · next j' h' =>
    obtain rfl : j = j' := by rw [h] at h'; exact Option.some.inj h'
    rfl

end

theorem explore_of_none {visit : β → List Nat → ForInStep β} {chosen : List Nat} {state : β × Nat}
    (h : R.shortest? = none) :
    R.explore visit chosen state = withWork state.2 (visit state.1 chosen) := by
  rw [explore]
  exact match_shortest?_of_none h

theorem explore_of_some {visit : β → List Nat → ForInStep β} {chosen : List Nat} {state : β × Nat}
    (h : R.shortest? = some j) :
    R.explore visit chosen state =
      R.exploreEach visit chosen j (R.candidates j)
        (state.1, state.2 + ((R.candidates j).map (excess m)).sum) := by
  rw [explore]
  refine (match_shortest?_of_some h).trans ?_
  exact foldUntil_attach (fun state r =>
    (R.choose r).explore visit (chosen ++ [r]) (state.1, state.2 + R.effort j r)) _ _

theorem coversFrom_of_none {chosen : List Nat} (h : R.shortest? = none) :
    R.coversFrom chosen = [chosen] := by
  rw [coversFrom]
  exact match_shortest?_of_none h

theorem coversFrom_of_some {chosen : List Nat} (h : R.shortest? = some j) :
    R.coversFrom chosen =
      (R.candidates j).flatMap fun r => (R.choose r).coversFrom (chosen ++ [r]) := by
  rw [coversFrom]
  refine (match_shortest?_of_some h).trans ?_
  exact flatMap_attach (fun r => (R.choose r).coversFrom (chosen ++ [r])) _

theorem treeSize_of_none (h : R.shortest? = none) : R.treeSize = 1 := by
  rw [treeSize]
  exact match_shortest?_of_none h

theorem treeSize_of_some (h : R.shortest? = some j) :
    R.treeSize = 1 + ((R.candidates j).map fun r => (R.choose r).treeSize).sum := by
  rw [treeSize]
  refine (match_shortest?_of_some h).trans ?_
  show 1 + ((R.candidates j).attach.map fun x => (R.choose x.1).treeSize).sum = _
  rw [List.attach_map_val (f := fun r => (R.choose r).treeSize)]

/-! ## The visitor sees the exact covers one after another -/

/-- If every member of a list shows a list of exact covers, the whole list shows all of
    them. -/
theorem foldUntil_flatMap {visit : β → List Nat → ForInStep β} {g : Nat → List (List Nat)}
    {f : β × Nat → Nat → ForInStep (β × Nat)} {l : List Nat}
    (hf : ∀ r ∈ l, ∀ state, ∃ work, f state r = withWork work (foldUntil visit (g r) state.1))
    (state : β × Nat) :
    ∃ work, foldUntil f l state = withWork work (foldUntil visit (l.flatMap g) state.1) := by
  induction l generalizing state with
  | nil => exact ⟨state.2, rfl⟩
  | cons r l ih =>
    obtain ⟨work, hr⟩ := hf r List.mem_cons_self state
    rw [List.flatMap_cons, foldUntil_append]
    cases hvisit : foldUntil visit (g r) state.1 with
    | yield b =>
      rw [hvisit] at hr
      rw [foldUntil_cons_yield hr]
      exact ih (fun r hr => hf r (List.mem_cons_of_mem _ hr)) (b, work)
    | done b =>
      rw [hvisit] at hr
      exact ⟨work, foldUntil_cons_done hr⟩

/-- The visitor is shown the exact covers one after another until it is done. -/
theorem explore_eq_foldUntil (visit : β → List Nat → ForInStep β) (R : Residual m)
    (chosen : List Nat) (state : β × Nat) :
    ∃ work, R.explore visit chosen state =
      withWork work (foldUntil visit (R.coversFrom chosen) state.1) := by
  induction R using choose_induction generalizing chosen state with
  | none R h =>
    refine ⟨state.2, ?_⟩
    rw [explore_of_none h, coversFrom_of_none h]
    cases hvisit : visit state.1 chosen with
    | yield b => rw [foldUntil_cons_yield hvisit, foldUntil]
    | done b => rw [foldUntil_cons_done hvisit]
  | some R j h ih =>
    rw [explore_of_some h, coversFrom_of_some h]
    exact foldUntil_flatMap
      (fun r hr state => ih r hr (chosen ++ [r]) (state.1, state.2 + R.effort j r)) _

/-! ## The work adds up -/

/-- Adds work that has been done before. -/
def addWork (work : Nat) : ForInStep (β × Nat) → ForInStep (β × Nat)
  | .yield (b, u) => .yield (b, work + u)
  | .done (b, u) => .done (b, work + u)

theorem addWork_eq_mapAnswer (work : Nat) (answer : ForInStep (β × Nat)) :
    addWork work answer = mapAnswer (Prod.map id (work + ·)) answer := by
  cases answer <;> rfl

/-- What has been done before changes neither what is shown nor what is done from here
    on. -/
theorem explore_addWork (visit : β → List Nat → ForInStep β) (R : Residual m) (chosen : List Nat)
    (work : Nat) (b : β) (u : Nat) :
    R.explore visit chosen (b, work + u) = addWork work (R.explore visit chosen (b, u)) := by
  induction R using choose_induction generalizing chosen b u with
  | none R h =>
    rw [explore_of_none h, explore_of_none h]
    cases visit b chosen <;> rfl
  | some R j h ih =>
    simp only [addWork_eq_mapAnswer] at ih ⊢
    rw [explore_of_some h, explore_of_some h, Nat.add_assoc]
    refine foldUntil_mapAnswer (g := Prod.map id (work + ·)) (fun r hr state => ?_) (b, _)
    show (R.choose r).explore visit (chosen ++ [r]) (state.1, work + state.2 + R.effort j r) = _
    rw [Nat.add_assoc]
    exact ih r hr _ _ _

/-! ## Visitors that correspond -/

/-- If the values that two visitors make correspond at every visit, they correspond
    after the exploration. -/
theorem explore_mapAnswer {γ : Type} {g : β → γ} {visit : β → List Nat → ForInStep β}
    {visit' : γ → List Nat → ForInStep γ}
    (hvisit : ∀ b rows, visit' (g b) rows = mapAnswer g (visit b rows)) (R : Residual m)
    (chosen : List Nat) (b : β) (u : Nat) :
    R.explore visit' chosen (g b, u) =
      mapAnswer (Prod.map g id) (R.explore visit chosen (b, u)) := by
  induction R using choose_induction generalizing chosen b u with
  | none R h =>
    rw [explore_of_none h, explore_of_none h, hvisit]
    cases visit b chosen <;> rfl
  | some R j h ih =>
    rw [explore_of_some h, explore_of_some h]
    exact foldUntil_mapAnswer (g := Prod.map g id)
      (fun r hr state => ih r hr (chosen ++ [r]) state.1 (state.2 + R.effort j r)) (b, _)

/-! ## Prefixes -/

theorem covers_of_none (h : R.shortest? = none) : R.covers = [[]] := by
  rw [covers]
  exact match_shortest?_of_none h

theorem covers_of_some (h : R.shortest? = some j) :
    R.covers = (R.candidates j).flatMap fun r => (R.choose r).covers.map (r :: ·) := by
  rw [covers]
  refine (match_shortest?_of_some h).trans ?_
  exact flatMap_attach (fun r => (R.choose r).covers.map (r :: ·)) _

/-- The rows that are already chosen come first in each exact cover. -/
theorem coversFrom_eq (R : Residual m) (chosen : List Nat) :
    R.coversFrom chosen = R.covers.map (chosen ++ ·) := by
  induction R using choose_induction generalizing chosen with
  | none R h => simp [coversFrom_of_none h, covers_of_none h]
  | some R j h ih =>
    rw [coversFrom_of_some h, covers_of_some h, List.map_flatMap]
    apply List.flatMap_congr
    intro r hr
    rw [ih r hr, List.map_map]
    exact List.map_congr_left fun rows _ => by simp

/-! ## How many problems there are -/

theorem candidates_choose_sublist (R : Residual m) (r : Nat) (j : Fin m.width) :
    ((R.choose r).candidates j).Sublist (R.candidates j) :=
  List.filter_sublist.filter _

/-- At most `k` rows can be chosen for each column, and each choice leaves fewer
    columns. -/
theorem treeSize_le {k : Nat} (R : Residual m) (hk : ∀ j, (R.candidates j).length ≤ k) :
    R.treeSize ≤ (k + 1) ^ R.columns.length := by
  induction R using choose_induction with
  | none R h =>
    rw [treeSize_of_none h]
    exact Nat.one_le_pow _ _ k.succ_pos
  | some R j h ih =>
    have hpos : 0 < R.columns.length :=
      List.length_pos_of_mem (List.mem_of_find?_eq_some h)
    have hchoose : ∀ r ∈ R.candidates j,
        (R.choose r).treeSize ≤ (k + 1) ^ (R.columns.length - 1) := by
      intro r hr
      have hlt := columns_choose_lt h hr
      have hsub : ∀ j, ((R.choose r).candidates j).length ≤ k := fun j =>
        (candidates_choose_sublist R r j).length_le.trans (hk j)
      exact (ih r hr hsub).trans (Nat.pow_le_pow_right k.succ_pos (by omega))
    have hsum : ((R.candidates j).map fun r => (R.choose r).treeSize).sum ≤
        k * (k + 1) ^ (R.columns.length - 1) := by
      have hcard := List.sum_le_card_nsmul ((R.candidates j).map fun r => (R.choose r).treeSize)
        ((k + 1) ^ (R.columns.length - 1)) (by simpa using hchoose)
      rw [List.length_map, smul_eq_mul] at hcard
      exact hcard.trans (Nat.mul_le_mul_right _ (hk j))
    have hone : 1 ≤ (k + 1) ^ (R.columns.length - 1) := Nat.one_le_pow _ _ k.succ_pos
    calc R.treeSize
        = 1 + ((R.candidates j).map fun r => (R.choose r).treeSize).sum := treeSize_of_some h
      _ ≤ (k + 1) ^ (R.columns.length - 1) + k * (k + 1) ^ (R.columns.length - 1) := by omega
      _ = (k + 1) ^ (R.columns.length - 1 + 1) := by ring
      _ = (k + 1) ^ R.columns.length := by rw [Nat.sub_add_cancel hpos]

end Residual

end ExactCover
