import ExactCover.Search
import ExactCover.Proofs.Wiring

/-!
# No operation runs on for ever

Calls that are not properly nested may leave vertical lists that lack nodes, or hold
nodes that should be hidden. Their links still lead one way: each leads to a node of the
same column, from a 1 down or to the sentinel, and the links back lead up. So a walk
along a column comes to its sentinel in any state, and an operation returns unless one
of its checks fails.

Results:
* `Oriented.hide`, `Oriented.unhide`: to hide a node and to put one back keeps the
  direction of the links, in any state.
* `cover_meets`, `exists_uncover`: how coverings and uncoverings end, and what they
  keep.
-/

namespace ExactCover

open BitMatrix

/-! ## How a computation ends -/

section

variable {n : Nat} {σ ι : Type} {allowed : Fault → Prop} {sound sound' : σ → Prop}
  {x : Except Fault σ}

/-- Only the given faults can occur, and any result is sound. -/
def Meets (allowed : Fault → Prop) (sound : σ → Prop) : Except Fault σ → Prop
  | .error fault => allowed fault
  | .ok s => sound s

theorem Meets.imp (h : Meets allowed sound x) (hsound : ∀ s, sound s → sound' s) :
    Meets allowed sound' x := by
  cases x with
  | error fault => exact h
  | ok s => exact hsound s h

theorem Meets.bind {f : σ → Except Fault σ} (h : Meets allowed sound x)
    (hf : ∀ s, sound s → Meets allowed sound' (f s)) : Meets allowed sound' (x >>= f) := by
  cases x with
  | error fault => exact h
  | ok s => exact hf s h

theorem foldlM_meets {visit : σ → ι → Except Fault σ} {l : List ι} {s : σ}
    (hvisit : ∀ s, sound s → ∀ i ∈ l, Meets allowed sound (visit s i)) (hs : sound s) :
    Meets allowed sound (l.foldlM visit s) := by
  induction l generalizing s with
  | nil => exact hs
  | cons i l ih =>
    rw [List.foldlM_cons]
    exact (hvisit s hs i List.mem_cons_self).bind fun t ht =>
      ih (fun s hs i hi => hvisit s hs i (List.mem_cons_of_mem _ hi)) ht

/-- A walk ends if each step leads back to its start or lowers a measure. -/
theorem walkOn_meets {next : σ → Fin n → Fin n} {visit : σ → Fin n → Except Fault σ} {start : Fin n}
    (here : Fin n → Prop) (measure : Fin n → Nat)
    (hvisit : ∀ s p, sound s → here p → p ≠ start → Meets allowed
      (fun t => sound t ∧ here (next t p) ∧ (next t p = start ∨ measure (next t p) < measure p))
      (visit s p)) :
    ∀ {fuel : Nat} {p : Fin n} {s : σ}, sound s → here p → (p = start ∨ measure p < fuel) →
      Meets allowed sound (walkOn next visit start fuel p s) := by
  intro fuel
  induction fuel with
  | zero =>
    intro p s hs _ hfuel
    rw [walkOn, if_pos (hfuel.resolve_right (Nat.not_lt_zero _))]
    exact hs
  | succ fuel ih =>
    intro p s hs hp hfuel
    rw [walkOn]
    split
    · exact hs
    · next hne =>
      refine (hvisit s p hs hp hne).bind fun t ht => ?_
      obtain ⟨ht, hnext, hlower⟩ := ht
      refine ih ht hnext (hlower.imp_right fun hlower => ?_)
      have hlt := hfuel.resolve_left hne
      omega

end

/-! ## Links that lead one way -/

namespace LinkedMatrix

variable {m : BitMatrix} {L : LinkedMatrix m.width m.ones.length}

/-- The vertical links stay in their columns and lead one way, and what is never changed
    is as in the matrix. -/
structure Oriented (L : LinkedMatrix m.width m.ones.length) : Prop extends L.Fixed where
  column_down : ∀ p, L.column (L.down p) = L.column p
  column_up : ∀ p, L.column (L.up p) = L.column p
  down_node : ∀ i : m.One, L.down (m.node i) = sentinel (headerOf (m.columnOf i)) ∨
    m.node i < L.down (m.node i)
  up_node : ∀ i : m.One, L.up (m.node i) < m.node i

theorem sentinel_lt_node (h : Header m.width) (i : m.One) : sentinel h < m.node i := by
  have hlt := h.isLt
  show h.val < m.width + 1 + i.val
  omega

theorem node_lt_node {i i' : m.One} (h : i < i') : m.node i < m.node i' := by
  have hlt : i.val < i'.val := h
  show m.width + 1 + i.val < m.width + 1 + i'.val
  omega

/-- The neighbours of a node in its vertical list lie in its column. -/
theorem column_neighbours_ofMatrix (p : Node m.width m.ones.length) :
    (ofMatrix m).column ((ofMatrix m).down p) = (ofMatrix m).column p ∧
      (ofMatrix m).column ((ofMatrix m).up p) = (ofMatrix m).column p := by
  have hcolumn : ∀ j, ∀ i ∈ m.onesInColumn j, m.columnOf i = j :=
    fun j i hi => mem_onesInColumn.1 hi
  have hlist : ∀ j, ∀ p ∈ sentinel (headerOf j) :: (m.onesInColumn j).map m.node,
      (ofMatrix m).column ((ofMatrix m).down p) = (ofMatrix m).column p ∧
        (ofMatrix m).column ((ofMatrix m).up p) = (ofMatrix m).column p := by
    intro j p hp
    have hring := vertical_ofMatrix m j
    rw [column_of_mem (hcolumn j) hp]
    exact ⟨column_of_mem (hcolumn j) (hring.next_mem hp),
      column_of_mem (hcolumn j) (hring.prev_mem hp)⟩
  induction p using forall_node with
  | hsentinel h =>
    induction h using forall_header with
    | hroot => rw [(wired_ofMatrix m).down_root, (wired_ofMatrix m).up_root]; exact ⟨rfl, rfl⟩
    | hcolumn j => exact hlist j _ List.mem_cons_self
  | hnode i => exact hlist (m.columnOf i) _ (by simp)

theorem oriented_ofMatrix (m : BitMatrix) : (ofMatrix m).Oriented where
  toFixed := fixed_ofMatrix m
  column_down p := (column_neighbours_ofMatrix p).1
  column_up p := (column_neighbours_ofMatrix p).2
  down_node i := by
    rw [(wired_ofMatrix m).down]
    cases hbelow : m.onesBelow i with
    | nil => exact .inl rfl
    | cons i' below =>
      have hi' : i' ∈ m.onesBelow i := by simp [hbelow]
      exact .inr (node_lt_node (by simpa using (List.mem_filter.1 hi').2))
  up_node i := by
    rw [(wired_ofMatrix m).up]
    rcases List.eq_nil_or_concat' (m.onesAbove i) with hnil | ⟨above, i', hconcat⟩
    · rw [hnil]
      exact sentinel_lt_node _ i
    · have hi' : i' ∈ m.onesAbove i := by simp [hconcat]
      rw [hconcat, List.map_append, List.map_singleton, List.getLastD_concat]
      exact node_lt_node (by simpa using (List.mem_filter.1 hi').2)

namespace Oriented

variable {i : m.One}

/-- A link that is changed to lead to a node of the same column still stays in its
    column. -/
theorem column_ite {f : Node m.width m.ones.length → Node m.width m.ones.length}
    {p q : Node m.width m.ones.length} (hf : ∀ p', L.column (f p') = L.column p')
    (hq : L.column q = L.column p) (p' : Node m.width m.ones.length) :
    L.column (if p' = p then q else f p') = L.column p' := by
  split
  · next hp => rw [hp, hq]
  · exact hf p'

/-- To hide a node joins the one above it to the one below. -/
theorem hide (h : L.Oriented) (i : m.One) : (L.hide (m.node i)).Oriented := by
  have hdown : ∀ p, (L.hide (m.node i)).down p =
      if p = L.up (m.node i) then L.down (m.node i) else L.down p := Rings.next_remove _ _
  have hup : ∀ p, (L.hide (m.node i)).up p =
      if p = L.down (m.node i) then L.up (m.node i) else L.up p := Rings.prev_remove _ _
  refine ⟨h.toFixed.hide _, fun p => ?_, fun p => ?_, fun i' => ?_, fun i' => ?_⟩
  · show L.column ((L.hide (m.node i)).down p) = L.column p
    rw [hdown]
    exact column_ite h.column_down ((h.column_down _).trans (h.column_up _).symm) p
  · show L.column ((L.hide (m.node i)).up p) = L.column p
    rw [hup]
    exact column_ite h.column_up ((h.column_up _).trans (h.column_down _).symm) p
  · rw [hdown]
    split
    · next hi' =>
      have hcolumn : headerOf (m.columnOf i') = headerOf (m.columnOf i) := by
        rw [← h.column_node, ← h.column_node, hi', h.column_up]
      rw [hcolumn, hi']
      exact (h.down_node i).imp_right (h.up_node i).trans
    · exact h.down_node i'
  · rw [hup]
    split
    · next hi' =>
      have hlt : m.node i < m.node i' := by
        rw [hi']
        exact (h.down_node i).resolve_left (by rw [← hi']; exact nodeOf_ne_sentinel _ _)
      exact (h.up_node i).trans hlt
    · exact h.up_node i'

/-- To put a node back joins it to the two that its links name. -/
theorem unhide (h : L.Oriented) (i : m.One) : (L.unhide (m.node i)).Oriented := by
  have hdown : ∀ p, (L.unhide (m.node i)).down p =
      if p = L.up (m.node i) then m.node i else L.down p := Rings.next_restore _ _
  have hup : ∀ p, (L.unhide (m.node i)).up p =
      if p = L.down (m.node i) then m.node i else L.up p := Rings.prev_restore _ _
  refine ⟨h.toFixed.unhide _, fun p => ?_, fun p => ?_, fun i' => ?_, fun i' => ?_⟩
  · show L.column ((L.unhide (m.node i)).down p) = L.column p
    rw [hdown]
    exact column_ite h.column_down (h.column_up _).symm p
  · show L.column ((L.unhide (m.node i)).up p) = L.column p
    rw [hup]
    exact column_ite h.column_up (h.column_down _).symm p
  · rw [hdown]
    split
    · next hi' =>
      rw [hi']
      exact .inr (h.up_node i)
    · exact h.down_node i'
  · rw [hup]
    split
    · next hi' =>
      rw [hi']
      exact (h.down_node i).resolve_left (by rw [← hi']; exact nodeOf_ne_sentinel _ _)
    · exact h.up_node i'

end Oriented

end LinkedMatrix

/-! ## The operations -/

namespace Search

open LinkedMatrix

variable {m : BitMatrix} {s t : Search m.width m.ones.length} {r : Rings (m.width + 1)} {i : m.One}
  {j : Fin m.width} {allowed : Fault → Prop}
  {visit : Search m.width m.ones.length → Node m.width m.ones.length →
    Except Fault (Search m.width m.ones.length)}

/-- The links lead one way, and the horizontal list is the given one. -/
def Sound (r : Rings (m.width + 1)) (s : Search m.width m.ones.length) : Prop :=
  s.links.Oriented ∧ s.links.horizontal = r

/-- A walk along links that never change goes through the list of its start. -/
theorem walk_eq_foldlM {way : LinkedMatrix m.width m.ones.length → Node m.width m.ones.length →
      Node m.width m.ones.length} {ring : Rings (m.width + 1 + m.ones.length)} {is : List m.One}
    (hs : s.links.Oriented) (hring : ring.IsRing (m.node i :: is.map m.node))
    (hway : ∀ L, Oriented L → way L = ring.next)
    (hvisit : ∀ s i t, s.links.Oriented → visit s (m.node i) = .ok t → t.links.Oriented) :
    walk (fun s => way s.links) visit (m.node i) s = (is.map m.node).foldlM visit s := by
  unfold walk
  show walkOn _ visit (m.node i) _ (way s.links (m.node i)) s = _
  rw [hway s.links hs]
  have hsound : ∀ s : Search m.width m.ones.length, s.links.Oriented → ∀ p ∈ is.map m.node,
      ∀ t, visit s p = .ok t → t.links.Oriented ∧ way t.links p = ring.next p := by
    intro s hs p hp t ht
    obtain ⟨i', -, rfl⟩ := List.mem_map.1 hp
    have ht' := hvisit s i' t hs ht
    exact ⟨ht', congrFun (hway t.links ht') _⟩
  exact walkOn_eq_foldlM hring.leads hring.length_le (by exact hs) hsound

/-- A walk to the right that starts at a 1 goes around its row. -/
theorem walk_right_eq (hs : s.links.Oriented)
    (hvisit : ∀ s i t, s.links.Oriented → visit s (m.node i) = .ok t → t.links.Oriented)
    (i : m.One) :
    walk (fun s => s.links.right) visit (m.node i) s =
      ((m.restOfRow i).map m.node).foldlM visit s :=
  walk_eq_foldlM hs (across_ofMatrix m i) (fun _ hL => congrArg Rings.next hL.across) hvisit

/-- A walk to the left that starts at a 1 goes around its row the other way. -/
theorem walk_left_eq (hs : s.links.Oriented)
    (hvisit : ∀ s i t, s.links.Oriented → visit s (m.node i) = .ok t → t.links.Oriented)
    (i : m.One) :
    walk (fun s => s.links.left) visit (m.node i) s =
      ((m.restOfRow i).reverse.map m.node).foldlM visit s := by
  have hring := (across_ofMatrix m i).flip
  rw [← List.map_reverse] at hring
  exact walk_eq_foldlM hs hring (fun _ hL => congrArg Rings.prev hL.across) hvisit

/-- Some column is counted as empty although a node is taken out of it. -/
def IsEmptied (fault : Fault) : Prop := ∃ h, fault = .alreadyEmpty h

theorem hide_meets (hs : Sound r s) (i : m.One) :
    Meets IsEmptied (Sound r) (s.hide (m.node i)) := by
  unfold hide
  dsimp only
  split
  · exact ⟨_, rfl⟩
  · exact ⟨hs.1.hide i, hs.2⟩

theorem unhide_meets (hs : Sound r s) (i : m.One) :
    Meets (fun _ => False) (Sound r) (s.unhide (m.node i)) :=
  ⟨hs.1.unhide i, hs.2⟩

theorem hideRow_meets (hs : Sound r s) (i : m.One) :
    Meets IsEmptied (Sound r) (s.hideRow (m.node i)) := by
  unfold hideRow
  rw [walk_right_eq hs.1 (fun s i t hs ht => ?_)]
  · refine foldlM_meets (fun s hs p hp => ?_) hs
    obtain ⟨i', -, rfl⟩ := List.mem_map.1 hp
    exact hide_meets hs i'
  · have hmeets := hide_meets ⟨hs, rfl⟩ i
    rw [ht] at hmeets
    exact hmeets.1

theorem unhideRow_meets (hs : Sound r s) (i : m.One) :
    Meets (fun _ => False) (Sound r) (s.unhideRow (m.node i)) := by
  unfold unhideRow
  rw [walk_left_eq hs.1 (fun s i t hs ht => ?_)]
  · refine foldlM_meets (fun s hs p hp => ?_) hs
    obtain ⟨i', -, rfl⟩ := List.mem_map.1 hp
    exact unhide_meets hs i'
  · cases ht
    exact hs.unhide i

/-- A walk along a column ends, whatever the list holds, because it leads one way. -/
theorem walk_column_meets {way : LinkedMatrix m.width m.ones.length → Node m.width m.ones.length →
      Node m.width m.ones.length} (measure : Node m.width m.ones.length → Nat)
    (hmeasure : ∀ p, measure p < m.width + 1 + m.ones.length)
    (hcolumn : ∀ L, Oriented L → ∀ p, L.column (way L p) = L.column p)
    (hway : ∀ L, Oriented L → ∀ i, way L (m.node i) = sentinel (headerOf (m.columnOf i)) ∨
      measure (way L (m.node i)) < measure (m.node i))
    (hvisit : ∀ s i, Sound r s → Meets allowed (Sound r) (visit s (m.node i))) (hs : Sound r s)
    (j : Fin m.width) :
    Meets allowed (Sound r) (walk (fun s => way s.links) visit (sentinel (headerOf j)) s) := by
  have hcolumn' : ∀ {L : LinkedMatrix m.width m.ones.length} (_ : L.Oriented) (p),
      (LinkedMatrix.ofMatrix m).column (way L p) = (LinkedMatrix.ofMatrix m).column p := by
    intro L hL p
    have hsame := hcolumn L hL p
    rwa [column, column, hL.columns] at hsame
  refine walkOn_meets (fun p => (LinkedMatrix.ofMatrix m).column p = headerOf j) measure
    (fun s p hs hp hne => ?_) hs ?_ (.inr (hmeasure _))
  · induction p using forall_node with
    | hsentinel h =>
      rw [column_sentinel] at hp
      exact absurd (congrArg sentinel hp) hne
    | hnode i =>
      rw [column_nodeOf] at hp
      refine (hvisit s i hs).imp fun t ht => ⟨ht, ?_, ?_⟩
      · rw [hcolumn' ht.1, column_nodeOf, hp]
      · rw [← hp]
        exact hway t.links ht.1 i
  · rw [hcolumn' hs.1, column_sentinel]

/-- A covering whose check passes ends, and takes the column out of the horizontal list;
    only a column that is counted as empty can stop it. -/
theorem cover_meets (hs : s.links.Oriented) (hj : s.links.horizontal.Joined (headerOf j)) :
    Meets IsEmptied (Sound (s.links.horizontal.remove (headerOf j))) (s.cover (headerOf j)) := by
  unfold cover
  rw [if_pos hj, hs.head]
  refine walk_column_meets (fun p => m.width + m.ones.length - p.val) (fun p => by omega)
    (fun L hL => hL.column_down) (fun L hL i => (hL.down_node i).imp_right fun hlt => ?_)
    (fun s i hs => hideRow_meets hs i) ⟨?_, rfl⟩ j
  · have hlt' := (L.down (m.node i)).isLt
    simp only [Fin.lt_def] at hlt
    omega
  · exact ⟨hs.toFixed.detach _, hs.column_down, hs.column_up, hs.down_node, hs.up_node⟩

/-- An uncovering whose check passes returns, and puts the column back into the
    horizontal list. -/
theorem exists_uncover (hs : s.links.Oriented) (hj : s.links.horizontal.Parted (headerOf j)) :
    ∃ t, s.uncover (headerOf j) = .ok t ∧ t.links.Oriented ∧
      t.links.horizontal = s.links.horizontal.restore (headerOf j) := by
  have hwalk : Meets (fun _ => False) (Sound s.links.horizontal)
      (walk (fun s => s.links.up) unhideRow (sentinel (headerOf j)) s) :=
    walk_column_meets (fun p => p.val) (fun p => p.isLt) (fun L hL => hL.column_up)
      (fun L hL i => .inr (hL.up_node i)) (fun s i hs => unhideRow_meets hs i) ⟨hs, rfl⟩ j
  unfold uncover
  rw [if_pos hj, hs.head]
  cases hunhidden : walk (fun s => s.links.up) unhideRow (sentinel (headerOf j)) s with
  | error fault =>
    rw [hunhidden] at hwalk
    exact hwalk.elim
  | ok t =>
    rw [hunhidden] at hwalk
    obtain ⟨ht, hhorizontal⟩ := hwalk
    refine ⟨_, rfl, ⟨ht.toFixed.attach _, ht.column_down, ht.column_up, ht.down_node, ht.up_node⟩,
      ?_⟩
    exact congrArg (Rings.restore · (headerOf j)) hhorizontal

end Search

end ExactCover
