import Mathlib
import ExactCover.LinkedMatrix

/-!
# The lists that links hold

`Rings.IsRing r l` says that the positions of `l`, in this cyclic order, are one of the
circular lists of `r`: each link leads on to the next position of `l`, or from the last
one to the first, and is answered by a link back. Such a list may be read from any of
its positions on, and in both directions. Lists without common positions do not notice
the operations on each other.

A walk along links that hold a known list visits the positions of the list, one after
another. The walks that only read the links return the list. The walks that change the
links are described by the state between two visits, as a function of the positions that
have been visited and of those that are still to come.

Results:
* `IsRing.remove`, `IsRing.insertBefore`: a removal takes one position out of its list,
  and an insertion adds one at the end.
* `IsRing.remove_of_notMem`, `IsRing.insertBefore_of_notMem`: all other lists stay as
  they are.
* `IsRing.restore_remove`: a position that is not alone in its list can be removed and
  restored.
* `listFrom_next`, `listFrom_prev`: the list that is read along the links, in either
  direction.
* `walk_eq_ok`: where a walk ends, if each visit leads from one of the given states to
  the next and leaves the link to the next position in place.
-/

namespace ExactCover

/-! ## Rings -/

namespace Rings

variable {n : Nat} {r : Rings n} {l xs ys : List (Fin n)} {a b p q : Fin n}

/-- The links of `p` and `q` lead from one to the other. -/
def Adjacent (r : Rings n) (p q : Fin n) : Prop :=
  r.next p = q ∧ r.prev q = p

/-- The positions of `l`, in this cyclic order, are one of the lists of `r`. -/
structure IsRing (r : Rings n) (l : List (Fin n)) : Prop where
  nodup : l.Nodup
  closed : (l ++ l.take 1).IsChain r.Adjacent

/-- The lists of `r` in the other direction. -/
def flip (r : Rings n) : Rings n where
  prevs := r.nexts
  nexts := r.prevs

@[simp] theorem next_flip (p : Fin n) : r.flip.next p = r.prev p := rfl

/-! ### Reading a list from another position on -/

theorem isRing_cons_iff :
    r.IsRing (a :: l) ↔ (a :: l).Nodup ∧ (a :: (l ++ [a])).IsChain r.Adjacent :=
  ⟨fun h => ⟨h.nodup, h.closed⟩, fun h => ⟨h.1, h.2⟩⟩

theorem isRing_singleton_iff : r.IsRing [a] ↔ r.Adjacent a a := by
  simp [isRing_cons_iff]

/-- A circular list may be cut anywhere. -/
theorem IsRing.rotate (xs ys : List (Fin n)) (h : r.IsRing (xs ++ ys)) : r.IsRing (ys ++ xs) := by
  cases xs with
  | nil => simpa using h
  | cons a xs =>
    cases ys with
    | nil => simpa using h
    | cons b ys =>
      refine isRing_cons_iff.2 ⟨List.perm_append_comm.nodup_iff.1 h.nodup, ?_⟩
      have hclosed : (a :: xs ++ b :: (ys ++ [a])).IsChain r.Adjacent := by simpa using h.closed
      obtain ⟨hxs, hys⟩ := List.isChain_split.1 hclosed
      have : (b :: ys ++ a :: (xs ++ [b])).IsChain r.Adjacent := List.isChain_split.2 ⟨hys, hxs⟩
      simpa using this

/-- A circular list that is read from `a` on is read from `a` on backwards as well. -/
theorem IsRing.flip (h : r.IsRing (a :: l)) : r.flip.IsRing (a :: l.reverse) := by
  obtain ⟨hnodup, hclosed⟩ := isRing_cons_iff.1 h
  refine isRing_cons_iff.2 ⟨by simpa using hnodup, ?_⟩
  have hreverse : a :: (l.reverse ++ [a]) = (a :: (l ++ [a])).reverse := by simp
  rw [hreverse, List.isChain_reverse]
  exact hclosed.imp fun p q hpq => And.symm hpq

theorem IsRing.next_eq (h : r.IsRing (a :: b :: l)) : r.next a = b :=
  (List.isChain_cons_cons.1 (isRing_cons_iff.1 h).2).1.1

theorem IsRing.prev_eq (h : r.IsRing (a :: b :: l)) : r.prev b = a :=
  (List.isChain_cons_cons.1 (isRing_cons_iff.1 h).2).1.2

theorem IsRing.prev_eq_last (h : r.IsRing (a :: (l ++ [b]))) : r.prev a = b := by
  have hrotate : r.IsRing (b :: a :: l) := h.rotate (a :: l) [b]
  exact hrotate.prev_eq

theorem IsRing.next_last (h : r.IsRing (l ++ [b])) : r.next b = l.headD b := by
  have hrotate : r.IsRing (b :: l) := h.rotate l [b]
  cases l with
  | nil => exact (isRing_singleton_iff.1 hrotate).1
  | cons a l => exact hrotate.next_eq

theorem IsRing.exists_cons (h : r.IsRing l) (hp : p ∈ l) :
    ∃ l', r.IsRing (p :: l') ∧ ∀ q, q ∈ l ↔ q ∈ p :: l' := by
  obtain ⟨xs, ys, rfl⟩ := List.append_of_mem hp
  refine ⟨ys ++ xs, h.rotate xs (p :: ys), fun q => ?_⟩
  simp only [List.mem_append, List.mem_cons]
  tauto

/-- The links from a position of a list stay in the list. -/
theorem IsRing.next_mem (h : r.IsRing l) (hp : p ∈ l) : r.next p ∈ l := by
  obtain ⟨l', hring, hmem⟩ := h.exists_cons hp
  rw [hmem]
  cases l' with
  | nil => simp [(isRing_singleton_iff.1 hring).1]
  | cons b zs => simp [hring.next_eq]

theorem IsRing.prev_mem (h : r.IsRing l) (hp : p ∈ l) : r.prev p ∈ l := by
  cases l with
  | nil => simp at hp
  | cons a l => simpa using h.flip.next_mem (by simpa using hp)

theorem IsRing.next_prev (h : r.IsRing l) (hp : p ∈ l) : r.next (r.prev p) = p := by
  obtain ⟨l', hring, -⟩ := h.exists_cons hp
  rcases List.eq_nil_or_concat' l' with rfl | ⟨zs, a, rfl⟩
  · have hself := isRing_singleton_iff.1 hring
    rw [hself.2, hself.1]
  · have hlast : r.IsRing (a :: p :: zs) := hring.rotate (p :: zs) [a]
    rw [hlast.prev_eq, hlast.next_eq]

theorem IsRing.prev_next (h : r.IsRing l) (hp : p ∈ l) : r.prev (r.next p) = p := by
  cases l with
  | nil => simp at hp
  | cons a l => exact h.flip.next_prev (by simpa using hp)

/-- No position but that of a list of its own is linked to itself. -/
theorem IsRing.next_ne (h : r.IsRing l) (hp : p ∈ l) (hq : q ∈ l) (hne : q ≠ p) : r.next p ≠ p := by
  obtain ⟨l', hring, hmem⟩ := h.exists_cons hp
  cases l' with
  | nil => exact absurd (by simpa using (hmem q).1 hq) hne
  | cons b zs =>
    rw [hring.next_eq]
    rintro rfl
    simpa using hring.nodup

/-! ### Removing and restoring -/

/-- Links that a removal does not touch still form a chain. -/
theorem isChain_remove (hprev : r.prev p ∉ l.dropLast) (hnext : r.next p ∉ l.tail)
    (h : l.IsChain r.Adjacent) : l.IsChain (r.remove p).Adjacent := by
  induction l with
  | nil => exact .nil
  | cons a l ih =>
    cases l with
    | nil => exact .singleton a
    | cons b l =>
      simp only [List.dropLast_cons_cons, List.mem_cons, not_or, List.tail_cons] at hprev hnext
      obtain ⟨hab, hrest⟩ := List.isChain_cons_cons.1 h
      refine List.isChain_cons_cons.2 ⟨⟨?_, ?_⟩, ih hprev.2 hnext.2 hrest⟩
      · rw [next_remove, if_neg (Ne.symm hprev.1), hab.1]
      · rw [prev_remove, if_neg (Ne.symm hnext.1), hab.2]

/-- A list without the neighbours of `p` does not notice that `p` is removed. -/
theorem IsRing.remove_of_notMem (h : r.IsRing l) (hprev : r.prev p ∉ l) (hnext : r.next p ∉ l) :
    (r.remove p).IsRing l := by
  cases l with
  | nil => exact ⟨h.nodup, .nil⟩
  | cons a l =>
    obtain ⟨hnodup, hclosed⟩ := isRing_cons_iff.1 h
    refine isRing_cons_iff.2 ⟨hnodup, isChain_remove ?_ ?_ hclosed⟩
    · simpa [List.dropLast_cons_of_ne_nil] using hprev
    · simpa [or_comm] using hnext

/-- The list that begins at `p` loses `p`. -/
theorem IsRing.remove_head (h : r.IsRing (p :: l)) (hl : l ≠ []) : (r.remove p).IsRing l := by
  cases l with
  | nil => exact absurd rfl hl
  | cons b ys =>
    obtain ⟨zs, a, hza⟩ : ∃ zs a, b :: ys = zs ++ [a] :=
      ⟨_, _, (List.dropLast_append_getLast hl).symm⟩
    have hnext : r.next p = b := h.next_eq
    have hprev : r.prev p = a := IsRing.prev_eq_last (hza ▸ h)
    obtain ⟨hnodup, hclosed⟩ := isRing_cons_iff.1 h
    have hnodup' : (b :: ys).Nodup := (List.nodup_cons.1 hnodup).2
    have ha : a ∉ zs := by
      rw [hza] at hnodup'
      exact fun hmem => List.disjoint_of_nodup_append hnodup' hmem (by simp)
    have hb : b ∉ ys := (List.nodup_cons.1 hnodup').1
    have hchain : (b :: ys).IsChain r.Adjacent :=
      (List.isChain_cons_cons.1 hclosed).2.left_of_append
    refine isRing_cons_iff.2 ⟨hnodup', ?_⟩
    have hchain' : (b :: ys).IsChain (r.remove p).Adjacent := by
      refine isChain_remove ?_ ?_ hchain
      · rw [hprev, hza, List.dropLast_concat]
        exact ha
      · rw [hnext]
        exact hb
    rw [← List.cons_append, hza]
    rw [hza] at hchain'
    apply hchain'.append (.singleton b)
    intro x hx y hy
    -- The link from the last position back to the first is the one that closes the gap.
    obtain rfl : a = x := by simpa using hx
    obtain rfl : b = y := by simpa using hy
    refine ⟨?_, ?_⟩
    · rw [next_remove, if_pos hprev.symm, hnext]
    · rw [prev_remove, if_pos hnext.symm, hprev]

/-- A removal takes one position out of its list. -/
theorem IsRing.remove (h : r.IsRing (xs ++ p :: ys)) (hne : xs ++ ys ≠ []) :
    (r.remove p).IsRing (xs ++ ys) := by
  have hne' : ys ++ xs ≠ [] := by simpa [and_comm] using hne
  exact IsRing.rotate ys xs ((h.rotate _ _).remove_head hne')

theorem IsRing.remove_filter (h : r.IsRing l) (hp : p ∈ l) (hq : q ∈ l) (hne : q ≠ p) :
    (r.remove p).IsRing (l.filter (· ≠ p)) := by
  obtain ⟨xs, ys, rfl⟩ := List.append_of_mem hp
  obtain ⟨hxs, hys⟩ : p ∉ xs ∧ p ∉ ys := by
    have hnodup := List.nodup_middle.1 h.nodup
    simpa using (List.nodup_cons.1 hnodup).1
  have hfilter : (xs ++ p :: ys).filter (· ≠ p) = xs ++ ys := by
    rw [List.filter_append, List.filter_cons_of_neg (by simp), List.filter_eq_self.2,
      List.filter_eq_self.2]
    · intro x hx
      simpa using fun heq : x = p => hys (heq ▸ hx)
    · intro x hx
      simpa using fun heq : x = p => hxs (heq ▸ hx)
  rw [hfilter]
  apply h.remove
  intro hnil
  have : q ∈ xs ++ ys := by simpa [hne] using hq
  simp [hnil] at this

theorem IsRing.joined (h : r.IsRing l) (hp : p ∈ l) : r.Joined p :=
  h.next_prev hp

/-- The neighbours of a removed position stand next to each other. -/
theorem IsRing.parted_remove (h : r.IsRing l) (hp : p ∈ l) (hq : q ∈ l) (hne : q ≠ p) :
    (r.remove p).Parted p := by
  have hnext : r.next p ≠ p := h.next_ne hp hq hne
  have hprev : r.prev p ≠ p := fun heq => hnext (by rw [← heq, h.next_prev hp, heq])
  have hprev' : (r.remove p).prev p = r.prev p := by rw [prev_remove, if_neg hnext.symm]
  have hnext' : (r.remove p).next p = r.next p := by rw [next_remove, if_neg hprev.symm]
  refine ⟨?_, ?_⟩
  · rw [hprev', hnext', next_remove, if_pos rfl]
  · rw [hprev', hnext', prev_remove, if_pos rfl]

/-- A position that is not alone in its list can be removed and restored. -/
theorem IsRing.restore_remove (h : r.IsRing l) (hp : p ∈ l) (hq : q ∈ l) (hne : q ≠ p) :
    (r.remove p).restore p = r :=
  Rings.restore_remove (h.next_prev hp) (h.prev_next hp) (h.next_ne hp hq hne)

/-! ### Inserting -/

/-- Links that an insertion does not touch still form a chain. -/
theorem isChain_insertBefore (hlast : r.prev q ∉ l.dropLast) (hq : q ∉ l.tail) (hp : p ∉ l)
    (h : l.IsChain r.Adjacent) : l.IsChain (r.insertBefore q p).Adjacent := by
  induction l with
  | nil => exact .nil
  | cons a l ih =>
    cases l with
    | nil => exact .singleton a
    | cons b l =>
      simp only [List.dropLast_cons_cons, List.mem_cons, not_or, List.tail_cons] at hlast hq hp
      obtain ⟨hab, hrest⟩ := List.isChain_cons_cons.1 h
      have hrest' := ih hlast.2 hq.2 (by simp [hp.2.1, hp.2.2]) hrest
      refine List.isChain_cons_cons.2 ⟨⟨?_, ?_⟩, hrest'⟩
      · rw [next_insertBefore, if_neg (Ne.symm hlast.1), if_neg (Ne.symm hp.1), hab.1]
      · rw [prev_insertBefore, if_neg (Ne.symm hq.1), if_neg (Ne.symm hp.2.1), hab.2]

/-- A list without `q` does not notice what is inserted before `q`. -/
theorem IsRing.insertBefore_of_notMem (h : r.IsRing l) (hlast : r.prev q ∉ l) (hq : q ∉ l)
    (hp : p ∉ l) : (r.insertBefore q p).IsRing l := by
  cases l with
  | nil => exact ⟨h.nodup, .nil⟩
  | cons a l =>
    obtain ⟨hnodup, hclosed⟩ := isRing_cons_iff.1 h
    refine isRing_cons_iff.2 ⟨hnodup, isChain_insertBefore ?_ ?_ ?_ hclosed⟩
    · simpa [List.dropLast_cons_of_ne_nil] using hlast
    · simpa [or_comm] using hq
    · simpa [or_comm, or_assoc] using hp

/-- What is inserted before `a` stands at the end of the list that begins at `a`. -/
theorem IsRing.insertBefore (h : r.IsRing (a :: l)) (hp : p ∉ a :: l) :
    (r.insertBefore a p).IsRing (a :: (l ++ [p])) := by
  obtain ⟨hnodup, hclosed⟩ := isRing_cons_iff.1 h
  obtain ⟨zs, b, hzb⟩ : ∃ zs b, a :: l = zs ++ [b] :=
    ⟨_, _, (List.dropLast_append_getLast (List.cons_ne_nil a l)).symm⟩
  have hlast : r.prev a = b := by
    cases zs with
    | nil =>
      obtain ⟨rfl, rfl⟩ : a = b ∧ l = [] := by simpa using hzb
      exact (isRing_singleton_iff.1 h).2
    | cons a' zs =>
      obtain ⟨rfl, rfl⟩ : a = a' ∧ l = zs ++ [b] := by simpa using hzb
      exact h.prev_eq_last
  have hb : b ∉ zs := by
    rw [hzb] at hnodup
    exact fun hmem => List.disjoint_of_nodup_append hnodup hmem (by simp)
  have hpa : p ≠ a := fun heq => hp (by simp [heq])
  have hpb : p ≠ b := fun heq => hp (by simp [hzb, heq])
  have hchain : (a :: l).IsChain (r.insertBefore a p).Adjacent := by
    refine isChain_insertBefore ?_ (List.nodup_cons.1 hnodup).1 hp ?_
    · rw [hlast, hzb, List.dropLast_concat]
      exact hb
    · exact (show (a :: l ++ [a]).IsChain r.Adjacent from hclosed).left_of_append
  refine isRing_cons_iff.2 ⟨?_, ?_⟩
  · simpa using List.Nodup.concat hp hnodup
  · have hsplit : a :: (l ++ [p] ++ [a]) = (a :: l) ++ [p, a] := by simp
    rw [hsplit]
    rw [hzb] at hchain ⊢
    refine hchain.append ?_ fun x hx y hy => ?_
    · refine List.isChain_pair.2 ⟨?_, ?_⟩
      · rw [next_insertBefore, hlast, if_neg hpb, if_pos rfl]
      · rw [prev_insertBefore, if_pos rfl]
    · obtain rfl : b = x := by simpa using hx
      obtain rfl : p = y := by simpa using hy
      refine ⟨?_, ?_⟩
      · rw [next_insertBefore, if_pos hlast.symm]
      · rw [prev_insertBefore, if_neg hpa, if_pos rfl, hlast]

end Rings

/-! ## Walks along known lists -/

section

variable {n : Nat} {σ : Type}

namespace Rings

variable {r : Rings n} {l ys : List (Fin n)} {p start : Fin n}

/-- The link from the start of a list leads to its first position, or back to the
    start. -/
theorem IsRing.next_start (h : r.IsRing (start :: l)) : r.next start = l.headD start := by
  cases l with
  | nil => exact (isRing_singleton_iff.1 h).1
  | cons a l => exact h.next_eq

/-- The link from a position of a list leads to the one after it, or back to the
    start. -/
theorem IsRing.next_of_append {xs : List (Fin n)} (h : r.IsRing (start :: (xs ++ p :: ys))) :
    r.next p = ys.headD start := by
  have hrotate : r.IsRing (p :: (ys ++ start :: xs)) := by
    simpa using h.rotate (start :: xs) (p :: ys)
  rw [hrotate.next_start]
  cases ys <;> rfl

theorem leads_of_isChain : ∀ {l : List (Fin n)} {p : Fin n}, start ∉ l →
    (p :: (l ++ [start])).IsChain r.Adjacent → Leads r.next start (r.next p) l := by
  intro l
  induction l with
  | nil =>
    intro p _ h
    rw [(List.isChain_pair.1 h).1]
    exact .home
  | cons a l ih =>
    intro p hstart h
    obtain ⟨hpa, hrest⟩ := List.isChain_cons_cons.1 h
    simp only [List.mem_cons, not_or] at hstart
    rw [hpa.1]
    exact .step (Ne.symm hstart.1) (ih hstart.2 hrest)

theorem IsRing.leads (h : r.IsRing (start :: l)) : Leads r.next start (r.next start) l := by
  obtain ⟨hnodup, hclosed⟩ := isRing_cons_iff.1 h
  exact leads_of_isChain (List.nodup_cons.1 hnodup).1 hclosed

theorem IsRing.length_le (h : r.IsRing (start :: l)) : l.length ≤ n := by
  have hlength : (start :: l).length ≤ n := by simpa using h.nodup.length_le_card
  simp only [List.length_cons] at hlength
  omega

end Rings

/-! ### Reading a list -/

theorem foldlM_visited (ps visited : List (Fin n)) :
    ps.foldlM (fun visited p => (Except.ok (p :: visited) : Except Fault _)) visited =
      .ok (ps.reverse ++ visited) := by
  induction ps generalizing visited with
  | nil => rfl
  | cons p ps ih =>
    rw [List.foldlM_cons]
    show ps.foldlM _ (p :: visited) = _
    rw [ih]
    simp

theorem listFrom_of_leads {way : Fin n → Fin n} {start : Fin n} {ps : List (Fin n)}
    (h : Leads way start (way start) ps) (hlen : ps.length ≤ n) : listFrom way start = .ok ps := by
  have hwalk : walk (fun _ => way) (fun visited p => Except.ok (p :: visited)) start [] =
      .ok ps.reverse := by
    unfold walk
    have hfold := @walkOn_eq_foldlM n _ (fun _ => way) (fun visited p => .ok (p :: visited))
      start way (fun _ => True) ps (way start) [] n h hlen trivial
      fun _ _ _ _ _ _ => ⟨trivial, rfl⟩
    rw [hfold]
    simpa using foldlM_visited ps []
  unfold listFrom
  rw [hwalk]
  show Except.ok ps.reverse.reverse = _
  rw [List.reverse_reverse]

theorem listFrom_next {r : Rings n} {start : Fin n} {l : List (Fin n)}
    (h : r.IsRing (start :: l)) : listFrom r.next start = .ok l :=
  listFrom_of_leads h.leads h.length_le

theorem listFrom_prev {r : Rings n} {start : Fin n} {l : List (Fin n)}
    (h : r.IsRing (start :: l)) : listFrom r.prev start = .ok l.reverse :=
  listFrom_next h.flip

/-! ### Changing the links on the way -/

section

variable {ι : Type} {next : σ → Fin n → Fin n} {visit : σ → Fin n → Except Fault σ} {start : Fin n}

theorem walkOn_eq_ok {is : List ι} (place : ι → Fin n) (state : List ι → List ι → σ)
    (hstart : start ∉ is.map place)
    (hvisit : ∀ xs i ys, is = xs ++ i :: ys →
      visit (state xs (i :: ys)) (place i) = .ok (state (xs ++ [i]) ys) ∧
        next (state (xs ++ [i]) ys) (place i) = (ys.map place).headD start) :
    ∀ (ys xs : List ι) (fuel : Nat), is = xs ++ ys → ys.length ≤ fuel →
      walkOn next visit start fuel ((ys.map place).headD start) (state xs ys) =
        .ok (state is []) := by
  intro ys
  induction ys with
  | nil =>
    intro xs fuel his _
    obtain rfl : is = xs := by simpa using his
    cases fuel <;> simp [walkOn]
  | cons i ys ih =>
    intro xs fuel his hfuel
    cases fuel with
    | zero => simp at hfuel
    | succ fuel =>
      have hne : place i ≠ start := fun heq => hstart (by simp [his, ← heq])
      obtain ⟨hok, hnext⟩ := hvisit xs i ys his
      rw [List.map_cons, List.headD_cons, walkOn, if_neg hne, hok]
      show walkOn next visit start fuel (next (state (xs ++ [i]) ys) (place i))
        (state (xs ++ [i]) ys) = _
      rw [hnext]
      exact ih (xs ++ [i]) fuel (by simp [his]) (by simpa using hfuel)

/-- A walk along the places of `is` that is in `state xs ys` when it has visited those
    of `xs` and has still to visit those of `ys`. -/
theorem walk_eq_ok (is : List ι) (place : ι → Fin n) (state : List ι → List ι → σ) {s t : σ}
    (hs : s = state [] is) (ht : t = state is []) (hnodup : (start :: is.map place).Nodup)
    (hstart : next s start = (is.map place).headD start)
    (hvisit : ∀ xs i ys, is = xs ++ i :: ys →
      visit (state xs (i :: ys)) (place i) = .ok (state (xs ++ [i]) ys) ∧
        next (state (xs ++ [i]) ys) (place i) = (ys.map place).headD start) :
    walk next visit start s = .ok t := by
  have hlength : (start :: is.map place).length ≤ n := by simpa using hnodup.length_le_card
  simp only [List.length_cons, List.length_map] at hlength
  unfold walk
  rw [hstart, hs, ht]
  exact walkOn_eq_ok place state (List.nodup_cons.1 hnodup).1 hvisit is [] n rfl (by omega)

end

end

end ExactCover
