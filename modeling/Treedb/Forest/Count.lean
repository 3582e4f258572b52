import Treedb.Forest.Basic

/-!
# Counting descendants

The number of proper descendants of every node, and how it changes when a node
is cut from its parent or given one. Both edits move a whole subtree, so exactly
the ancestors of the point of the edit see their count change, all by the size of
that subtree.
-/

namespace Forest

universe u

variable {α : Type u} {parent parent' : α → Option α} {x a c p : α} {nodes : Finset α}

/-- The proper descendants of `a`. -/
def below (parent : α → Option α) (a : α) : Set α :=
  {x | StrictAnc parent x a}

/-- The subtree rooted at `c`, its root included. -/
def subtree (parent : α → Option α) (c : α) : Set α :=
  {x | Anc parent x c}

/-- The number of proper descendants of `a`. -/
noncomputable def count (parent : α → Option α) (a : α) : ℕ :=
  (below parent a).ncard

theorem Supported.below_finite (supported : Supported parent nodes) (a : α) :
    (below parent a).Finite := by
  apply nodes.finite_toSet.subset
  intro x strict
  rcases strictAnc_iff_parent.mp strict with ⟨p, step, _⟩
  exact (supported x p step).1

theorem subtree_eq_insert (parent : α → Option α) (c : α) :
    subtree parent c = insert c (below parent c) := by
  ext x
  simp only [subtree, below, Set.mem_insert_iff, Set.mem_ofPred_eq, anc_iff_eq_or_strictAnc]
  rw [eq_comm]

theorem Supported.subtree_finite (supported : Supported parent nodes) (c : α) :
    (subtree parent c).Finite := by
  rw [subtree_eq_insert]
  exact (supported.below_finite c).insert c

theorem ncard_subtree (acyclic : Acyclic parent) (supported : Supported parent nodes) (c : α) :
    (subtree parent c).ncard = count parent c + 1 := by
  have outside : c ∉ below parent c := acyclic.strict_irrefl c
  rw [subtree_eq_insert, Set.ncard_insert_of_notMem outside (supported.below_finite c), count]

theorem strictAnc_iff_anc_ne (acyclic : Acyclic parent) :
    StrictAnc parent x a ↔ Anc parent x a ∧ x ≠ a := by
  constructor
  · intro strict
    refine ⟨strict.anc, ?_⟩
    rintro rfl
    exact acyclic.strict_irrefl x strict
  · rintro ⟨anc, ne⟩
    rcases anc_iff_eq_or_strictAnc.mp anc with same | strict
    · exact absurd same.symm ne
    · exact strict

section Unlink

variable (acyclic : Acyclic parent) (cut : parent' c = none)
  (outside : ∀ x, x ≠ c → parent' x = parent x)

include acyclic cut outside

theorem acyclic_unlink : Acyclic parent' := by
  apply acyclic.mono
  intro y q step
  have ne : y ≠ c := by
    rintro rfl
    simp [cut] at step
  rw [← outside y ne, step]

/-- An ancestor of the cut node loses the subtree below the cut. -/
theorem count_unlink_of_strictAnc (supported : Supported parent nodes)
    (above : StrictAnc parent c a) :
    count parent' a + (count parent c + 1) = count parent a := by
  have rest : below parent' a = below parent a \ subtree parent c := by
    ext x
    simp only [below, subtree, Set.mem_sdiff, Set.mem_ofPred_eq,
      strictAnc_iff_anc_ne (acyclic_unlink acyclic cut outside), strictAnc_iff_anc_ne acyclic,
      anc_unlink acyclic cut outside]
    have apart : ¬Anc parent a c := acyclic.not_anc_of_strict above
    tauto
  have inside : subtree parent c ⊆ below parent a := fun x low => low.trans_strict above
  rw [← ncard_subtree acyclic supported c, count, rest,
    Set.ncard_sdiff_add_ncard_of_subset inside (supported.below_finite a), count]

/-- Every other node keeps its count when `c` is cut from its parent. -/
theorem count_unlink_of_not_strictAnc (apart : ¬StrictAnc parent c a) :
    count parent' a = count parent a := by
  have same : below parent' a = below parent a := by
    ext x
    simp only [below, Set.mem_ofPred_eq,
      strictAnc_iff_anc_ne (acyclic_unlink acyclic cut outside), strictAnc_iff_anc_ne acyclic,
      anc_unlink acyclic cut outside]
    constructor
    · rintro ⟨⟨anc, _⟩, ne⟩
      exact ⟨anc, ne⟩
    · rintro ⟨anc, ne⟩
      refine ⟨⟨anc, fun low => ?_⟩, ne⟩
      rcases anc.total low with high | back
      · exact high
      · rcases anc_iff_eq_or_strictAnc.mp back with same | strict
        · rw [same]
        · exact absurd strict apart
  rw [count, same, count]

end Unlink

section Link

variable (acyclic : Acyclic parent) (free : parent c = none) (joined : parent' c = some p)
  (outside : ∀ x, x ≠ c → parent' x = parent x) (apart : ¬Anc parent p c)

include acyclic joined outside apart

theorem acyclic_link : Acyclic parent' := by
  apply acyclic.relink {c} (p := p)
  · rintro x rfl
    exact joined
  · intro x notMem
    exact outside x notMem
  · rintro y rfl
    exact apart

omit acyclic apart in
include free in
theorem anc_link :
    Anc parent' x a ↔ Anc parent x a ∨ Anc parent x c ∧ Anc parent p a := by
  have free' : ∀ x ∈ ({c} : Set α), parent x = none := by
    rintro x rfl
    exact free
  have inside : ∀ x ∈ ({c} : Set α), parent' x = some p := by
    rintro x rfl
    exact joined
  rw [anc_relink {c} free' inside fun x notMem => outside x notMem]
  simp

include free

/-- The new parent and its ancestors gain the whole subtree of `c`. -/
theorem count_link_of_anc (supported : Supported parent nodes) (above : Anc parent p a) :
    count parent' a = count parent a + (count parent c + 1) := by
  have all : below parent' a = below parent a ∪ subtree parent c := by
    ext x
    simp only [below, subtree, Set.mem_union, Set.mem_ofPred_eq,
      strictAnc_iff_anc_ne (acyclic_link acyclic joined outside apart),
      strictAnc_iff_anc_ne acyclic, anc_link free joined outside]
    constructor
    · tauto
    · rintro (⟨anc, ne⟩ | low)
      · exact ⟨Or.inl anc, ne⟩
      · refine ⟨Or.inr ⟨low, above⟩, ?_⟩
        rintro rfl
        exact apart (above.trans low)
  have disjoint : Disjoint (below parent a) (subtree parent c) := by
    rw [Set.disjoint_left]
    intro x strict low
    rcases strict.anc.total low with high | back
    · exact apart (above.trans high)
    · rw [(anc_iff_of_root free).mp back] at above
      exact apart above
  rw [← ncard_subtree acyclic supported c, count, all, Set.ncard_union_eq disjoint
    (supported.below_finite a) (supported.subtree_finite c), count]

/-- Nodes that are not above the new parent keep their count. -/
theorem count_link_of_not_anc (far : ¬Anc parent p a) : count parent' a = count parent a := by
  have same : below parent' a = below parent a := by
    ext x
    simp only [below, Set.mem_ofPred_eq,
      strictAnc_iff_anc_ne (acyclic_link acyclic joined outside apart),
      strictAnc_iff_anc_ne acyclic, anc_link free joined outside]
    tauto
  rw [count, same, count]

end Link

end Forest
