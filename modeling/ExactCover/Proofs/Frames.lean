import ExactCover.Search
import ExactCover.Proofs.Rings

/-!
# What the operations leave alone

Covering and uncovering work on the links. The trail is changed by the steps of a search
only, and the count of updates by coverings only: to put back what was hidden adds
nothing to it.

Results:
* `walk_keeps`: a walk leaves alone what each of its visits leaves alone.
* `coverRow_keeps`, `uncoverRow_keeps`: what covering and uncovering leave alone.
* `trail_of_step`: what a step does to the trail, in any state.
* `updates_of_uncoverTrail`: to take back choices adds nothing to the updates.
-/

namespace ExactCover

theorem bind_eq_ok_iff {ε α β : Type} {x : Except ε α} {f : α → Except ε β} {y : β} :
    (x >>= f) = .ok y ↔ ∃ a, x = .ok a ∧ f a = .ok y := by
  cases x with
  | error e => simp [bind, Except.bind]
  | ok a => simp [bind, Except.bind]

theorem foldlM_keeps {ε σ ι γ : Type} {f : σ → γ} {visit : σ → ι → Except ε σ}
    (hvisit : ∀ s i t, visit s i = .ok t → f t = f s) {l : List ι} {s t : σ}
    (h : l.foldlM visit s = .ok t) : f t = f s := by
  induction l generalizing s with
  | nil => cases h; rfl
  | cons i l ih =>
    rw [List.foldlM_cons] at h
    obtain ⟨s', hs', h⟩ := bind_eq_ok_iff.1 h
    rw [ih h, hvisit s i s' hs']

/-! ## Walks -/

section

variable {n : Nat} {σ γ : Type} {next : σ → Fin n → Fin n} {visit : σ → Fin n → Except Fault σ}
  {start p : Fin n} {s t : σ} {fuel : Nat}

theorem walkOn_keeps {f : σ → γ} (hvisit : ∀ s p t, visit s p = .ok t → f t = f s)
    (h : walkOn next visit start fuel p s = .ok t) : f t = f s := by
  induction fuel generalizing p s with
  | zero =>
    rw [walkOn] at h
    split at h
    · cases h; rfl
    · cases h
  | succ fuel ih =>
    rw [walkOn] at h
    split at h
    · cases h; rfl
    · obtain ⟨s', hs', h⟩ := bind_eq_ok_iff.1 h
      rw [ih h, hvisit s p s' hs']

/-- A walk leaves alone what each of its visits leaves alone. -/
theorem walk_keeps {f : σ → γ} (hvisit : ∀ s p t, visit s p = .ok t → f t = f s)
    (h : walk next visit start s = .ok t) : f t = f s :=
  walkOn_keeps hvisit h

/-- A walk that is back at its start is so within any greater number of visits. -/
theorem walkOn_mono {fuel' : Nat} (hfuel : fuel ≤ fuel')
    (h : walkOn next visit start fuel p s = .ok t) : walkOn next visit start fuel' p s = .ok t := by
  induction fuel generalizing p s fuel' with
  | zero =>
    rw [walkOn] at h
    split at h
    · next hp => cases fuel' <;> rw [walkOn, if_pos hp] <;> exact h
    · cases h
  | succ fuel ih =>
    obtain ⟨fuel', rfl⟩ := Nat.exists_eq_succ_of_ne_zero (Nat.ne_zero_of_lt hfuel)
    rw [walkOn] at h ⊢
    split at h
    · next hp => rw [if_pos hp]; exact h
    · next hp =>
      rw [if_neg hp]
      obtain ⟨s', hs', h⟩ := bind_eq_ok_iff.1 h
      exact bind_eq_ok_iff.2 ⟨s', hs', ih (Nat.le_of_succ_le_succ hfuel) h⟩

end

namespace Search

variable {c k : Nat} {γ : Type} {f : Search c k → γ} {s t : Search c k} {h : Header c}
  {p : Node c k}

/-! ## Covering -/

section

variable (hf : ∀ (s : Search c k) L u, f { s with links := L, updates := u } = f s)

include hf

theorem cover_keeps (ht : s.cover h = .ok t) : f t = f s := by
  have hhide : ∀ (s : Search c k) p t, s.hide p = .ok t → f t = f s := by
    intro s p t ht
    unfold hide at ht
    dsimp only at ht
    split at ht
    · cases ht
    · cases ht
      exact hf s _ _
  unfold cover at ht
  split at ht
  · exact (walk_keeps (fun s p t ht => walk_keeps hhide ht) ht).trans (hf s _ _)
  · cases ht

/-- To cover the columns of a row leaves alone all but the links and the count of
    updates. -/
theorem coverRow_keeps (ht : s.coverRow p = .ok t) : f t = f s :=
  walk_keeps (fun _ _ _ ht => cover_keeps hf ht) ht

end

/-! ## Uncovering -/

section

variable (hf : ∀ (s : Search c k) L, f { s with links := L } = f s)

include hf

theorem uncover_keeps (ht : s.uncover h = .ok t) : f t = f s := by
  have hunhide : ∀ (s : Search c k) p t, s.unhide p = .ok t → f t = f s := by
    intro s p t ht
    cases ht
    exact hf s _
  unfold uncover at ht
  split at ht
  · obtain ⟨t', ht', ht⟩ := bind_eq_ok_iff.1 ht
    cases ht
    exact (hf t' _).trans (walk_keeps (fun s p t ht => walk_keeps hunhide ht) ht')
  · cases ht

/-- To uncover the columns of a row leaves alone all but the links. -/
theorem uncoverRow_keeps (ht : s.uncoverRow p = .ok t) : f t = f s :=
  walk_keeps (fun _ _ _ ht => uncover_keeps hf ht) ht

end

/-- To take back choices adds nothing to the updates. -/
theorem updates_of_uncoverTrail (ht : s.uncoverTrail = .ok t) : t.updates = s.updates := by
  unfold uncoverTrail at ht
  refine (foldlM_keeps (f := updates) (fun s p t ht => ?_) ht).trans rfl
  obtain ⟨s', hs', ht⟩ := bind_eq_ok_iff.1 ht
  have hrow : s'.updates = s.updates := uncoverRow_keeps (fun _ _ => rfl) hs'
  have hcolumn : t.updates = s'.updates := uncover_keeps (fun _ _ => rfl) ht
  rw [hcolumn, hrow]

/-! ## Steps -/

variable {β : Type} {visit : β → List Nat → ForInStep β} {b b' : β} {phase phase' : Phase}

/-- The trail that a step puts its choice on: to backtrack is to take the last choice
    away first. -/
def openTrail (s : Search c k) : Phase → List (Node c k)
  | .descend => s.trail
  | .backtrack => s.trail.tail

theorem trail_of_descend (ht : s.descend visit b = .ok (.going phase' t b')) :
    (phase' = .descend ∧ ∃ p, t.trail = p :: s.trail) ∨
      (phase' = .backtrack ∧ t.trail = s.trail) := by
  unfold descend at ht
  obtain ⟨best, -, ht⟩ := bind_eq_ok_iff.1 ht
  cases best with
  | none =>
    cases hvisit : visit b s.chosenRows with
    | yield b'' =>
      simp only [hvisit] at ht
      cases ht
      exact .inr ⟨rfl, rfl⟩
    | done b'' =>
      simp only [hvisit] at ht
      obtain ⟨s', -, ht⟩ := bind_eq_ok_iff.1 ht
      cases ht
  | some h =>
    dsimp only at ht
    split at ht
    · cases ht
      exact .inr ⟨rfl, rfl⟩
    · split at ht
      · cases ht
      · obtain ⟨s', hs', ht⟩ := bind_eq_ok_iff.1 ht
        obtain ⟨s'', hs'', ht⟩ := bind_eq_ok_iff.1 ht
        cases ht
        have hcover : s'.trail = s.trail := cover_keeps (fun _ _ _ => rfl) hs'
        have hrow : t.trail = _ :: s'.trail := coverRow_keeps (fun _ _ _ => rfl) hs''
        exact .inl ⟨rfl, _, hcover ▸ hrow⟩

theorem trail_of_backtrack (ht : s.backtrack b = .ok (.going phase' t b')) :
    (phase' = .descend ∧ ∃ p, t.trail = p :: s.trail.tail) ∨
      (phase' = .backtrack ∧ t.trail = s.trail.tail) := by
  unfold backtrack at ht
  cases htrail : s.trail with
  | nil => simp only [htrail] at ht; cases ht
  | cons p trail =>
    simp only [htrail] at ht
    obtain ⟨s', hs', ht⟩ := bind_eq_ok_iff.1 ht
    have hrow : s'.trail = trail := uncoverRow_keeps (fun _ _ => rfl) hs'
    split at ht
    · obtain ⟨s'', hs'', ht⟩ := bind_eq_ok_iff.1 ht
      cases ht
      have huncover : t.trail = s'.trail := uncover_keeps (fun _ _ => rfl) hs''
      exact .inr ⟨rfl, huncover.trans hrow⟩
    · obtain ⟨s'', hs'', ht⟩ := bind_eq_ok_iff.1 ht
      cases ht
      have hcover : t.trail = _ :: s'.trail := coverRow_keeps (fun _ _ _ => rfl) hs''
      exact .inl ⟨rfl, _, hrow ▸ hcover⟩

/-- A step puts a node on the trail if and only if the search descends next. -/
theorem trail_of_step (ht : s.step visit phase b = .ok (.going phase' t b')) :
    (phase' = .descend ∧ ∃ p, t.trail = p :: s.openTrail phase) ∨
      (phase' = .backtrack ∧ t.trail = s.openTrail phase) := by
  cases phase with
  | descend => exact trail_of_descend ht
  | backtrack => exact trail_of_backtrack ht

end Search

end ExactCover
