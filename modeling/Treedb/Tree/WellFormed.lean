import Treedb.Map
import Treedb.Tree.Link

/-!
# Well-formed trees

A well-formed tree is a forest on the allocated branches whose root has no parent, and whose index
holds the root and every branch with a parent under its own id. A deleted branch has no parent and
is not indexed; it may still be the parent of branches that were left behind.

The three edits of the source, one for each of `insert`, `move` and `delete`, are given in closed
form (`Tree.grow`, `Tree.rehome`, `Tree.forget`) and keep a tree well-formed.
-/

namespace Treedb

open Forest

namespace Tree

/-- The invariant of the branch memory and its index. -/
structure WellFormed (t : Tree) : Prop extends t.Shape where
  root_lt : t.branch < t.next
  root_parent : t.parent t.branch = none
  root_index : t.branchIndex (t.mem t.branch).id = some t.branch
  index_spec : ∀ {k b}, t.branchIndex k = some b → (t.mem b).id = k ∧ b < t.next
  index_of_parent : ∀ {b p}, t.parent b = some p → t.branchIndex (t.mem b).id = some b

/-- The branch is stored in the index. -/
def Indexed (t : Tree) (b : BranchPtr) : Prop :=
  ∃ k, t.branchIndex k = some b

/-- Take a fresh branch into the memory. -/
def alloc (t : Tree) (new : Branch) : Tree :=
  { t with
    mem := Function.update t.mem t.next new
    next := t.next + 1
    branchN := t.branchN + 1 }

/-- The tree after an insert, before anything is saved. -/
def grow (t : Tree) (pb : BranchPtr) (new : Branch) (i : ℕ) : Tree :=
  branchIndexPut ((t.alloc new).link t.next pb i) t.next

/-- The tree after an accepted move, before anything is saved. -/
def rehome (t : Tree) (b opb npb : BranchPtr) (i : ℕ) : Tree :=
  (t.unlink b opb).link b npb i

/-- The tree after a delete, before anything is saved. -/
def forget (t : Tree) (b p : BranchPtr) : Tree :=
  (branchIndexDelete (t.unlink b p) (t.mem b).id).modify b fun x => { x with id := 0 }

/-- A branch fresh from `calloc`, with the fields that `insert` sets. -/
structure Fresh (new : Branch) : Prop where
  parent : new.parent = none
  childList : new.childList = []
  childN : new.childN = 0
  total : new.totalBranchN = 0

namespace WellFormed

variable {t : Tree} {b c p pb opb npb : BranchPtr} {new : Branch} {i : ℕ}

theorem indexed_id (wf : t.WellFormed) (indexed : t.Indexed b) :
    t.branchIndex (t.mem b).id = some b := by
  rcases indexed with ⟨k, stored⟩
  rw [(wf.index_spec stored).1]
  exact stored

theorem indexed_lt (wf : t.WellFormed) (indexed : t.Indexed b) : b < t.next :=
  (wf.index_spec indexed.choose_spec).2

theorem id_injective (wf : t.WellFormed) (indexedB : t.Indexed b) (indexedC : t.Indexed c)
    (same : (t.mem b).id = (t.mem c).id) : b = c := by
  have storedB := wf.indexed_id indexedB
  rw [same, wf.indexed_id indexedC] at storedB
  exact (Option.some.inj storedB).symm

theorem indexed_of_parent (wf : t.WellFormed) (step : t.parent b = some p) : t.Indexed b :=
  ⟨_, wf.index_of_parent step⟩

theorem root_indexed (wf : t.WellFormed) : t.Indexed t.branch :=
  ⟨_, wf.root_index⟩

theorem parent_lt (wf : t.WellFormed) (step : t.parent b = some p) : b < t.next ∧ p < t.next := by
  have supported := wf.supported b p step
  simpa using supported

/-- A branch with a parent is not the root. -/
theorem ne_root (wf : t.WellFormed) (step : t.parent b = some p) : b ≠ t.branch := by
  rintro rfl
  simp [wf.root_parent] at step

/-- Saving touches neither the memory nor the index. -/
theorem congr (wf : t.WellFormed) {t' : Tree} (mem : t'.mem = t.mem) (next : t'.next = t.next)
    (root : t'.branch = t.branch) (index : t'.branchIndex = t.branchIndex) : t'.WellFormed := by
  cases t
  cases t'
  subst mem next root index
  exact ⟨⟨wf.mirrors, wf.childN_eq, wf.acyclic, wf.supported⟩, wf.root_lt, wf.root_parent,
    wf.root_index, wf.index_spec, wf.index_of_parent⟩

end WellFormed

/-! ## Growing -/

section Grow

variable {t : Tree} {b c p pb : BranchPtr} {new : Branch} {i : ℕ}

theorem alloc_mem_of_ne (t : Tree) (new : Branch) (ne : b ≠ t.next) :
    (t.alloc new).mem b = t.mem b := by
  simp [alloc, ne]

theorem alloc_mem_next (t : Tree) (new : Branch) : (t.alloc new).mem t.next = new := by
  simp [alloc]

theorem Shape.next_parent (shape : t.Shape) : t.parent t.next = none := by
  cases step : t.parent t.next with
  | none => rfl
  | some p =>
      have supported := (shape.supported _ _ step).1
      simp at supported

theorem Shape.next_children (shape : t.Shape) : t.children t.next = [] := by
  apply List.eq_nil_iff_forall_not_mem.mpr
  intro c member
  have supported := (shape.supported _ _ (shape.mirrors.mem_iff.mp member)).2
  simp at supported

theorem Shape.alloc_parent (shape : t.Shape) (fresh : Fresh new) :
    (t.alloc new).parent = t.parent := by
  funext x
  by_cases same : x = t.next
  · subst same
    rw [parent, alloc_mem_next, fresh.parent, shape.next_parent]
  · rw [parent, alloc_mem_of_ne t new same, parent]

theorem Shape.alloc_children (shape : t.Shape) (fresh : Fresh new) :
    (t.alloc new).children = t.children := by
  funext x
  by_cases same : x = t.next
  · subst same
    rw [children, alloc_mem_next, fresh.childList, shape.next_children]
  · rw [children, alloc_mem_of_ne t new same, children]

theorem Shape.alloc (shape : t.Shape) (fresh : Fresh new) : (t.alloc new).Shape where
  mirrors := by
    rw [shape.alloc_parent fresh, shape.alloc_children fresh]
    exact shape.mirrors
  childN_eq := by
    intro q
    rw [shape.alloc_children fresh]
    by_cases same : q = t.next
    · subst same
      rw [alloc_mem_next, fresh.childN, shape.next_children]
      rfl
    · rw [alloc_mem_of_ne t new same]
      exact shape.childN_eq q
  acyclic := by
    rw [shape.alloc_parent fresh]
    exact shape.acyclic
  supported := by
    intro x q step
    rw [shape.alloc_parent fresh] at step
    have old := shape.supported x q step
    simp only [Finset.mem_range, Tree.alloc] at old ⊢
    omega

theorem Shape.canLink_alloc (shape : t.Shape) (fresh : Fresh new) (allocated : pb < t.next) :
    (t.alloc new).CanLink t.next pb where
  free := by
    rw [shape.alloc_parent fresh]
    exact shape.next_parent
  apart := by
    rw [shape.alloc_parent fresh]
    intro anc
    rcases anc_iff_eq_or_strictAnc.mp anc with same | strict
    · exact Nat.ne_of_gt allocated same
    · rcases Relation.TransGen.tail'_iff.mp strict with ⟨z, _, step⟩
      have supported := (shape.supported z t.next step).2
      simp at supported
  child_lt := Nat.lt_succ_self t.next
  parent_lt := Nat.lt_succ_of_lt allocated

theorem Shape.grow_parent (shape : t.Shape) (fresh : Fresh new) (x : BranchPtr) :
    (t.grow pb new i).parent x = if x = t.next then some pb else t.parent x := by
  change (if x = t.next then some pb else (t.alloc new).parent x) = _
  rw [shape.alloc_parent fresh]

theorem Shape.grow_children (shape : t.Shape) (fresh : Fresh new) (x : BranchPtr) :
    (t.grow pb new i).children x =
      if x = pb then (t.children x).insertIdx i t.next else t.children x := by
  change (if x = pb then ((t.alloc new).children x).insertIdx i t.next
    else (t.alloc new).children x) = _
  rw [shape.alloc_children fresh]

theorem grow_id (t : Tree) (pb : BranchPtr) (new : Branch) (i : ℕ) (x : BranchPtr) :
    ((t.grow pb new i).mem x).id = if x = t.next then new.id else (t.mem x).id := by
  change ((t.alloc new).mem x).id = _
  by_cases same : x = t.next
  · subst same
    rw [alloc_mem_next, if_pos rfl]
  · rw [alloc_mem_of_ne t new same, if_neg same]

theorem grow_index (t : Tree) (pb : BranchPtr) (new : Branch) (i : ℕ) (k : UInt64) :
    (t.grow pb new i).branchIndex k = if k = new.id then some t.next else t.branchIndex k := by
  have id : (((t.alloc new).link t.next pb i).mem t.next).id = new.id :=
    (grow_id t pb new i t.next).trans (if_pos rfl)
  simp only [grow, branchIndexPut, id, Function.update_apply]
  rfl

theorem WellFormed.grow (wf : t.WellFormed) (fresh : Fresh new) (indexed : t.Indexed pb)
    (unused : t.branchIndex new.id = none) (room : (t.children pb).length < 65535)
    (inside : i ≤ (t.children pb).length) : (t.grow pb new i).WellFormed := by
  have childLists := wf.alloc_children fresh
  have linked := (wf.toShape.alloc fresh).link (i := i)
    (wf.canLink_alloc fresh (wf.indexed_lt indexed)) (by rw [childLists]; exact room)
    (by rw [childLists]; exact inside)
  refine ⟨⟨linked.mirrors, linked.childN_eq, linked.acyclic, linked.supported⟩, ?_, ?_, ?_, ?_, ?_⟩
  · exact Nat.lt_succ_of_lt wf.root_lt
  · have ne : t.branch ≠ t.next := Nat.ne_of_lt wf.root_lt
    rw [wf.grow_parent fresh, show (t.grow pb new i).branch = t.branch from rfl, if_neg ne]
    exact wf.root_parent
  · have ne : t.branch ≠ t.next := Nat.ne_of_lt wf.root_lt
    have taken : (t.mem t.branch).id ≠ new.id := by
      intro same
      rw [← same, wf.root_index] at unused
      simp at unused
    rw [show (t.grow pb new i).branch = t.branch from rfl, grow_id, if_neg ne, grow_index,
      if_neg taken]
    exact wf.root_index
  · intro k x stored
    rw [grow_index] at stored
    by_cases isNew : k = new.id
    · rw [if_pos isNew, Option.some.injEq] at stored
      subst stored
      exact ⟨by rw [grow_id, if_pos rfl, isNew], Nat.lt_succ_self t.next⟩
    · rw [if_neg isNew] at stored
      rcases wf.index_spec stored with ⟨same, lt⟩
      exact ⟨by rw [grow_id, if_neg (Nat.ne_of_lt lt), same], Nat.lt_succ_of_lt lt⟩
  · intro x q step
    rw [wf.grow_parent fresh] at step
    rw [grow_id, grow_index]
    by_cases isNext : x = t.next
    · subst isNext
      simp
    · rw [if_neg isNext] at step ⊢
      have stored := wf.index_of_parent step
      have taken : (t.mem x).id ≠ new.id := by
        intro same
        rw [same, unused] at stored
        simp at stored
      rw [if_neg taken]
      exact stored

end Grow

/-! ## Moving -/

section Rehome

variable {t : Tree} {b opb npb : BranchPtr} {i : ℕ}

theorem WellFormed.canLink_unlink (wf : t.WellFormed) (step : t.parent b = some opb)
    (allocated : npb < t.next) (apart : ¬Anc t.parent npb b) :
    (t.unlink b opb).CanLink b npb where
  free := by simp [Shape.unlink_parent]
  apart := by
    rw [wf.unlink_anc]
    exact fun both => apart both.1
  child_lt := (wf.parent_lt step).1
  parent_lt := allocated

theorem rehome_parent (t : Tree) (b opb npb : BranchPtr) (i : ℕ) (x : BranchPtr) :
    (t.rehome b opb npb i).parent x = if x = b then some npb else t.parent x := by
  rw [rehome, Shape.link_parent, Shape.unlink_parent]
  by_cases same : x = b
  · rw [if_pos same, if_pos same]
  · rw [if_neg same, if_neg same, if_neg same]

theorem rehome_children (t : Tree) (b opb npb : BranchPtr) (i : ℕ) (x : BranchPtr) :
    (t.rehome b opb npb i).children x =
      if x = npb then ((t.unlink b opb).children x).insertIdx i b
      else (t.unlink b opb).children x :=
  rfl

theorem WellFormed.rehome (wf : t.WellFormed) (step : t.parent b = some opb)
    (allocated : npb < t.next) (apart : ¬Anc t.parent npb b)
    (room : ((t.unlink b opb).children npb).length < 65535)
    (inside : i ≤ ((t.unlink b opb).children npb).length) :
    (t.rehome b opb npb i).WellFormed := by
  have linked := (wf.toShape.unlink step).link (i := i) (wf.canLink_unlink step allocated apart)
    room inside
  refine ⟨⟨linked.mirrors, linked.childN_eq, linked.acyclic, linked.supported⟩, wf.root_lt, ?_,
    wf.root_index, wf.index_spec, ?_⟩
  · have ne : t.branch ≠ b := (wf.ne_root step).symm
    rw [show (t.rehome b opb npb i).branch = t.branch from rfl, rehome_parent, if_neg ne]
    exact wf.root_parent
  · intro x q pointed
    rw [rehome_parent] at pointed
    by_cases same : x = b
    · subst same
      exact wf.index_of_parent step
    · rw [if_neg same] at pointed
      exact wf.index_of_parent pointed

end Rehome

/-! ## Forgetting -/

section Forget

variable {t : Tree} {b p : BranchPtr}

theorem forget_parent (t : Tree) (b p x : BranchPtr) :
    (t.forget b p).parent x = if x = b then none else t.parent x := by
  simp only [forget, parent, modify_mem]
  by_cases same : x = b
  · simp [same, branchIndexDelete, unlink]
  · simp [same, branchIndexDelete, unlink]

theorem forget_children (t : Tree) (b p x : BranchPtr) :
    (t.forget b p).children x = if x = p then (t.children x).erase b else t.children x := by
  simp only [forget, children, modify_mem]
  by_cases same : x = b
  · simp [same, branchIndexDelete, unlink]
  · simp [same, branchIndexDelete, unlink]

theorem forget_id (t : Tree) (b p x : BranchPtr) :
    ((t.forget b p).mem x).id = if x = b then 0 else (t.mem x).id := by
  simp only [forget, modify_mem]
  by_cases same : x = b
  · simp [same]
  · simp [same, branchIndexDelete, unlink]

theorem forget_index (t : Tree) (b p : BranchPtr) (k : UInt64) :
    (t.forget b p).branchIndex k = if k = (t.mem b).id then none else t.branchIndex k := by
  simp only [forget, modify, branchIndexDelete, Function.update_apply]
  rfl

theorem WellFormed.forget (wf : t.WellFormed) (step : t.parent b = some p) :
    (t.forget b p).WellFormed := by
  have cut := wf.toShape.unlink step
  have links : SameLinks (t.unlink b p) (t.forget b p) := by
    refine ⟨rfl, fun x => ⟨?_, ?_, ?_⟩⟩
    · rw [forget_parent, Shape.unlink_parent]
    · rw [forget_children, Shape.unlink_children]
    · simp only [Tree.forget, modify_mem]
      by_cases same : x = b
      · simp [same, branchIndexDelete]
      · simp [same, branchIndexDelete]
  have rootNe : t.branch ≠ b := (wf.ne_root step).symm
  have stored := wf.index_of_parent step
  have other : ∀ {x}, t.branchIndex (t.mem x).id = some x → x ≠ b → (t.mem x).id ≠ (t.mem b).id := by
    intro x storedX ne same
    rw [same, stored] at storedX
    exact ne (Option.some.inj storedX).symm
  refine ⟨links.shape cut, wf.root_lt, ?_, ?_, ?_, ?_⟩
  · rw [show (t.forget b p).branch = t.branch from rfl, forget_parent, if_neg rootNe]
    exact wf.root_parent
  · rw [show (t.forget b p).branch = t.branch from rfl, forget_id, if_neg rootNe, forget_index,
      if_neg (other wf.root_index rootNe)]
    exact wf.root_index
  · intro k x found
    rw [forget_index] at found
    by_cases gone : k = (t.mem b).id
    · simp [gone] at found
    · rw [if_neg gone] at found
      rcases wf.index_spec found with ⟨same, lt⟩
      have ne : x ≠ b := by
        rintro rfl
        exact gone same.symm
      exact ⟨by rw [forget_id, if_neg ne, same], lt⟩
  · intro x q pointed
    rw [forget_parent] at pointed
    by_cases same : x = b
    · simp [same] at pointed
    · rw [if_neg same] at pointed
      have storedX := wf.index_of_parent pointed
      rw [forget_id, if_neg same, forget_index, if_neg (other storedX same)]
      exact storedX

end Forget

end Tree

end Treedb
