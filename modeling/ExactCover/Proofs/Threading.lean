import ExactCover.Proofs.Linking

/-!
# One list under removals in any order

Positions may be taken out of the horizontal list and put back in any order. What a
position that was taken out still points at may be out of date, and yet the list never
breaks, because a position is put back only between two that stand next to each other.
That this check suffices rests on three facts that every removal and every return keeps:
a link that is answered by a link back starts in the list, links lead forward or to the
root, and links back lead backward.

Results:
* `Threaded.remove`, `Threaded.restore`: the list after a removal and after a return.
* `Threaded.joined_iff`, `Threaded.parted_iff`: what the two checks tell.
-/

namespace ExactCover

namespace Rings

variable {c : Nat} {r : Rings (c + 1)} {l : List (Header c)} {active : Fin c → Bool} {j : Fin c}
  {p q : Header c}

/-- The root and the headers of the given columns, in the order of the matrix. -/
def headersOf (active : Fin c → Bool) : List (Header c) :=
  root :: ((List.finRange c).filter active).map headerOf

theorem mem_headersOf :
    p ∈ headersOf active ↔ p = root ∨ ∃ j, active j = true ∧ headerOf j = p := by
  simp [headersOf]

theorem root_mem_headersOf : root ∈ headersOf active := List.mem_cons_self

@[simp] theorem headerOf_mem_headersOf : headerOf j ∈ headersOf active ↔ active j = true := by
  simp [mem_headersOf]

theorem mem_headersOf_update {b : Bool} :
    p ∈ headersOf (Function.update active j b) ↔
      p = headerOf j ∧ b = true ∨ p ≠ headerOf j ∧ p ∈ headersOf active := by
  simp only [mem_headersOf, Function.update_apply]
  by_cases hp : p = headerOf j
  · subst hp
    simp
  · have hne : ∀ j', headerOf j' = p → j' ≠ j := fun j' hj' heq => hp (heq ▸ hj'.symm)
    simp only [hp, false_and, not_false_eq_true, true_and, false_or, ne_eq]
    refine or_congr_right (exists_congr fun j' => and_congr_left fun hj' => ?_)
    rw [if_neg (hne j' hj')]

theorem root_lt_headerOf (j : Fin c) : root < headerOf j := Fin.succ_pos j

theorem pairwise_headersOf (active : Fin c → Bool) : (headersOf active).Pairwise (· < ·) := by
  refine List.pairwise_cons.2 ⟨fun p hp => ?_, List.pairwise_map.2 ?_⟩
  · obtain ⟨j, -, rfl⟩ := List.mem_map.1 hp
    exact root_lt_headerOf j
  · exact ((List.pairwise_lt_finRange c).filter _).imp Fin.succ_lt_succ_iff.2

/-- A list along links that lead forward, or to the root, is in the order of the
    matrix. -/
theorem isRing_headersOf (h : r.IsRing l) (hforward : ∀ p, r.next p = root ∨ p < r.next p)
    (hmem : ∀ p, p ∈ l ↔ p ∈ headersOf active) : r.IsRing (headersOf active) := by
  obtain ⟨l', hring, hl'⟩ := h.exists_cons ((hmem root).2 root_mem_headersOf)
  obtain ⟨hnodup, hclosed⟩ := isRing_cons_iff.1 hring
  have hchain : (root :: l').IsChain r.Adjacent :=
    (show (root :: l' ++ [root]).IsChain r.Adjacent from hclosed).left_of_append
  have hsorted : (root :: l').Pairwise (· < ·) := by
    refine List.isChain_iff_pairwise.1 (hchain.imp_of_mem_tail_imp fun p q _ hq hpq => ?_)
    rcases hforward p with hroot | hlt
    · rw [hpq.1] at hroot
      exact absurd (hroot ▸ hq) (List.nodup_cons.1 hnodup).1
    · rwa [hpq.1] at hlt
  have heq : root :: l' = headersOf active :=
    hsorted.eq_of_mem_iff (pairwise_headersOf active) fun {p} => (hl' p).symm.trans (hmem p)
  rwa [← heq]

/-- A position of a list and the one after it are listed next to each other. -/
theorem IsRing.pair_isInfix {n : Nat} {r : Rings n} {l : List (Fin n)} {a p : Fin n}
    (h : r.IsRing (a :: l)) (hp : p ∈ a :: l) : [p, r.next p] <:+: a :: (l ++ [a]) := by
  obtain ⟨xs, ys, hl⟩ := List.append_of_mem hp
  obtain ⟨b, zs, hys⟩ : ∃ b zs, ys ++ [a] = b :: zs := List.exists_cons_of_ne_nil (by simp)
  have hclosed : a :: (l ++ [a]) = xs ++ p :: b :: zs := by
    rw [← hys, ← List.cons_append, hl]
    simp
  have hchain : (p :: b :: zs).IsChain r.Adjacent :=
    (show (xs ++ p :: b :: zs).IsChain r.Adjacent from
      hclosed ▸ (isRing_cons_iff.1 h).2).right_of_append
  rw [hclosed, (List.isChain_cons_cons.1 hchain).1.1]
  exact ⟨xs, zs, by simp⟩

/-- To return between two neighbours is to be inserted before the second one. -/
theorem restore_eq_insertBefore {n : Nat} {r : Rings n} {p : Fin n}
    (h : r.prev (r.next p) = r.prev p) : r.restore p = r.insertBefore (r.next p) p := by
  ext q
  · rw [prev_restore, prev_insertBefore, h]
    split
    · rfl
    · split
      · next hq => rw [hq]
      · rfl
  · rw [next_restore, next_insertBefore, h]
    split
    · rfl
    · split
      · next hq => rw [hq]
      · rfl

/-! ## The invariant -/

/-- The horizontal list holds the given columns, and nothing that has been taken out of
    it can be mistaken for a part of it. -/
structure Threaded (r : Rings (c + 1)) (active : Fin c → Bool) : Prop where
  ring : r.IsRing (headersOf active)
  mem_of_answered : ∀ p, r.prev (r.next p) = p → p ∈ headersOf active
  prev_lt : ∀ j, r.prev (headerOf j) < headerOf j
  forward : ∀ p, r.next p = root ∨ p < r.next p

namespace Threaded

theorem active_of_joined (h : r.Threaded active) (hj : r.Joined (headerOf j)) :
    active j = true := by
  have hprev : r.prev (headerOf j) ∈ headersOf active := h.mem_of_answered _ (by rw [hj])
  have hnext := h.ring.next_mem hprev
  rw [hj] at hnext
  exact headerOf_mem_headersOf.1 hnext

/-- A column can be covered if and only if it is in the list. -/
theorem joined_iff (h : r.Threaded active) : r.Joined (headerOf j) ↔ active j = true :=
  ⟨h.active_of_joined, fun hj => h.ring.joined (headerOf_mem_headersOf.2 hj)⟩

theorem prev_mem_of_parted (h : r.Threaded active) (hj : r.Parted p) :
    r.prev p ∈ headersOf active :=
  h.mem_of_answered _ (by rw [hj.1, hj.2])

theorem next_mem_of_parted (h : r.Threaded active) (hj : r.Parted p) :
    r.next p ∈ headersOf active := by
  rw [← hj.1]
  exact h.ring.next_mem (h.prev_mem_of_parted hj)

theorem inactive_of_parted (h : r.Threaded active) (hj : r.Parted (headerOf j)) :
    active j = false := by
  by_contra hactive
  have hmem : headerOf j ∈ headersOf active := headerOf_mem_headersOf.2 (by simpa using hactive)
  -- In the list the column would stand next to itself, and then alone, but the root is there too.
  refine h.ring.next_ne hmem root_mem_headersOf (headerOf_ne_root j).symm ?_
  rw [← hj.1, h.ring.next_prev hmem]

/-! ## Removing -/

theorem forward_remove (h : r.Threaded active) (j : Fin c) (p : Header c) :
    (r.remove (headerOf j)).next p = root ∨ p < (r.remove (headerOf j)).next p := by
  rw [next_remove]
  split
  · next hp =>
    rw [hp]
    exact (h.forward (headerOf j)).imp_right (h.prev_lt j).trans
  · exact h.forward p

theorem prev_lt_remove (h : r.Threaded active) (j j' : Fin c) :
    (r.remove (headerOf j)).prev (headerOf j') < headerOf j' := by
  rw [prev_remove]
  split
  · next hnext =>
    rcases h.forward (headerOf j) with hroot | hlt
    · exact absurd (hnext.trans hroot) (headerOf_ne_root j')
    · rw [hnext]
      exact (h.prev_lt j).trans hlt
  · exact h.prev_lt j'

/-- A column that is in the list can be taken out of it. -/
theorem remove (h : r.Threaded active) (hj : active j = true) :
    (r.remove (headerOf j)).Threaded (Function.update active j false) := by
  have hmem : headerOf j ∈ headersOf active := headerOf_mem_headersOf.2 hj
  have hself : r.prev (headerOf j) ≠ headerOf j := (h.prev_lt j).ne
  have hmem' : ∀ p, p ∈ headersOf (Function.update active j false) ↔
      p ∈ headersOf active ∧ p ≠ headerOf j := by
    intro p
    rw [mem_headersOf_update]
    by_cases hp : p = headerOf j <;> simp [hp]
  refine ⟨?_, fun p hp => ?_, h.prev_lt_remove j, h.forward_remove j⟩
  · refine isRing_headersOf (h.ring.remove_filter hmem root_mem_headersOf (headerOf_ne_root j).symm)
      (h.forward_remove j) fun p => ?_
    rw [hmem', List.mem_filter, decide_eq_true_eq]
  · rw [hmem']
    rw [next_remove] at hp
    split at hp
    · next hprev =>
      rw [hprev]
      exact ⟨h.ring.prev_mem hmem, hself⟩
    · next hprev =>
      rw [prev_remove] at hp
      split at hp
      · exact absurd hp.symm hprev
      · next hnext => exact ⟨h.mem_of_answered p hp, fun heq => hnext (by rw [heq])⟩

/-! ## Putting back -/

theorem forward_restore (h : r.Threaded active) (j : Fin c) (p : Header c) :
    (r.restore (headerOf j)).next p = root ∨ p < (r.restore (headerOf j)).next p := by
  rw [next_restore]
  split
  · next hp =>
    rw [hp]
    exact .inr (h.prev_lt j)
  · exact h.forward p

theorem prev_lt_restore (h : r.Threaded active) (j j' : Fin c) :
    (r.restore (headerOf j)).prev (headerOf j') < headerOf j' := by
  rw [prev_restore]
  split
  · next hnext =>
    rcases h.forward (headerOf j) with hroot | hlt
    · exact absurd (hnext.trans hroot) (headerOf_ne_root j')
    · rwa [hnext]
  · exact h.prev_lt j'

theorem ring_restore (h : r.Threaded active) (hj : r.Parted (headerOf j)) :
    (r.restore (headerOf j)).IsRing (headersOf (Function.update active j true)) := by
  have hinactive : headerOf j ∉ headersOf active := by simp [h.inactive_of_parted hj]
  obtain ⟨l, hring, hl⟩ := h.ring.exists_cons (h.next_mem_of_parted hj)
  have hinsert := hring.insertBefore (fun hmem => hinactive ((hl _).2 hmem))
  rw [← restore_eq_insertBefore hj.2] at hinsert
  refine isRing_headersOf hinsert (h.forward_restore j) fun p => ?_
  rw [mem_headersOf_update, hl, ← List.cons_append, List.mem_append, List.mem_singleton]
  by_cases hp : p = headerOf j <;> simp [hp]

/-- A column whose links name two neighbours can be put back between them. -/
theorem restore (h : r.Threaded active) (hj : r.Parted (headerOf j)) :
    (r.restore (headerOf j)).Threaded (Function.update active j true) := by
  refine ⟨h.ring_restore hj, fun p hp => ?_, h.prev_lt_restore j, h.forward_restore j⟩
  rw [mem_headersOf_update]
  by_cases heq : p = headerOf j
  · exact .inl ⟨heq, rfl⟩
  · refine .inr ⟨heq, ?_⟩
    rw [next_restore] at hp
    split at hp
    · next hprev =>
      rw [hprev]
      exact h.prev_mem_of_parted hj
    · rw [prev_restore] at hp
      split at hp
      · exact absurd hp.symm heq
      · exact h.mem_of_answered p hp

/-- A column can be uncovered if and only if it is not in the list, and the two
    positions that its links name stand next to each other in the list. -/
theorem parted_iff (h : r.Threaded active) :
    r.Parted (headerOf j) ↔ active j = false ∧
      [r.prev (headerOf j), r.next (headerOf j)] <:+: headersOf active ++ [root] := by
  constructor
  · intro hj
    have hpair := h.ring.pair_isInfix (h.prev_mem_of_parted hj)
    rw [hj.1] at hpair
    exact ⟨h.inactive_of_parted hj, hpair⟩
  · rintro ⟨-, hpair⟩
    have hchain : (headersOf active ++ [root]).IsChain r.Adjacent := h.ring.closed
    have hlinks := hchain.infix hpair
    have hadjacent := List.isChain_pair.1 hlinks
    exact hadjacent

end Threaded

/-- The list of all columns. -/
theorem threaded_cycle (c : Nat) : (cycle c).Threaded fun _ => true := by
  have hforward : ∀ p : Header c, (cycle c).next p = root ∨ p < (cycle c).next p := by
    intro p
    rw [next_cycle]
    rcases eq_or_ne p (Fin.last c) with rfl | hp
    · exact .inl (Fin.last_add_one c)
    · exact .inr (Fin.lt_add_one_iff.2 (Fin.lt_last_iff_ne_last.2 hp))
  have hmem : ∀ p : Header c, p ∈ headersOf fun _ => true := by
    intro p
    rw [mem_headersOf]
    rcases Fin.eq_zero_or_eq_succ p with rfl | ⟨j, rfl⟩
    · exact .inl rfl
    · exact .inr ⟨j, rfl, rfl⟩
  refine ⟨isRing_headersOf (LinkedMatrix.isRing_cycle c) hforward fun p => ?_, fun p _ => hmem p,
    fun j => ?_, hforward⟩
  · simp [hmem p]
  · rw [prev_cycle]
    exact Fin.sub_one_lt_iff.2 (root_lt_headerOf j)

end Rings

end ExactCover
