import Treedb.Outcome
import Treedb.Tree.WellFormed

/-!
# What an operation can do to the tree

Every operation of a map changes its tree by a sequence of four kinds of edits: a branch is added
as a leaf, a branch changes its place, a branch is forgotten, the data of a branch is rewritten.
`Edit.Allowed` states when an operation performs an edit, `Edit.apply` what the tree and its files
are afterwards. A property of trees that each allowed edit keeps is kept by every run.
-/

namespace Treedb

open Forest Outcome

namespace Tree

/-- One change of the tree, its index and its files. -/
inductive Edit
  | grow (pb : BranchPtr) (new : Branch) (i : ℕ)
  | rehome (b opb npb : BranchPtr) (i : ℕ)
  | forget (b p : BranchPtr)
  | relabel (b : BranchPtr) (text : CString) (noteId : UInt64)

namespace Edit

/-- The guards under which an operation performs the edit. -/
def Allowed (t : Tree) : Edit → Prop
  | grow pb new i =>
      Fresh new ∧ new.findex = t.branchN ∧ t.Indexed pb ∧ t.branchIndex new.id = none ∧
        (t.children pb).length < 65535 ∧ i ≤ (t.children pb).length
  | rehome b opb npb i =>
      t.parent b = some opb ∧ t.Indexed npb ∧ ¬Anc t.parent npb b ∧
        ((t.unlink b opb).children npb).length < 65535 ∧
        i ≤ ((t.unlink b opb).children npb).length
  | forget b p => t.parent b = some p
  | relabel b _ _ => t.Indexed b

/-- The tree and its files after the edit. -/
def apply (t : Tree) : Edit → Tree
  | grow pb new i => ioBranchNew (t.grow pb new i) t.next
  | rehome b opb npb i =>
      (t.rehome b opb npb i).flush
        (ioBranchMoved (t.rehome b opb npb i) b opb (UInt16.ofInt (branchGetPos t b)))
  | forget b p =>
      (t.forget b p).flush
        (ioBranchDeleted (t.forget b p) b p (UInt16.ofNat ((branchGetPos t b) % 256).toNat))
  | relabel b text noteId =>
      ioSaveBranchData (t.modify b fun x => { x with text := text, noteId := noteId }) b

end Edit

/-- The trees that allowed edits satisfying `P` lead to. -/
inductive Edits (P : Tree → Edit → Prop) : Tree → Tree → Prop
  | nil (t : Tree) : Edits P t t
  | cons {t t' : Tree} (e : Edit) (allowed : e.Allowed t) (holds : P t e)
      (rest : Edits P (e.apply t) t') : Edits P t t'

namespace Edits

variable {P Q : Tree → Edit → Prop} {t t' t'' : Tree}

theorem trans (first : Edits P t t') (second : Edits P t' t'') : Edits P t t'' := by
  induction first with
  | nil => exact second
  | cons e allowed holds _ ih => exact .cons e allowed holds (ih second)

theorem single (e : Edit) (allowed : e.Allowed t) (holds : P t e) : Edits P t (e.apply t) :=
  .cons e allowed holds (.nil _)

theorem mono (sub : ∀ t e, P t e → Q t e) (edits : Edits P t t') : Edits Q t t' := by
  induction edits with
  | nil => exact .nil _
  | cons e allowed holds _ ih => exact .cons e allowed (sub _ e holds) ih

/-- A property that every allowed edit keeps is kept by all of them together. -/
theorem invariant {R : Tree → Prop} (keeps : ∀ t e, R t → e.Allowed t → P t e → R (e.apply t))
    (edits : Edits P t t') (start : R t) : R t' := by
  induction edits with
  | nil => exact start
  | cons e allowed holds _ ih => exact ih (keeps _ e start allowed holds)

end Edits

/-! ## The memory after an edit -/

@[simp]
theorem flush_mem (t : Tree) (ws : List Write) : (t.flush ws).mem = t.mem :=
  rfl

theorem ioSaveBranchData_fields (t : Tree) (b : BranchPtr) :
    (ioSaveBranchData t b).mem = t.mem ∧ (ioSaveBranchData t b).next = t.next ∧
      (ioSaveBranchData t b).branch = t.branch ∧
      (ioSaveBranchData t b).branchIndex = t.branchIndex ∧
      (ioSaveBranchData t b).branchN = t.branchN ∧ (ioSaveBranchData t b).bhead = t.bhead := by
  unfold ioSaveBranchData
  split <;> exact ⟨rfl, rfl, rfl, rfl, rfl, rfl⟩

theorem WellFormed.flush {t : Tree} (wf : t.WellFormed) (ws : List Write) :
    (t.flush ws).WellFormed :=
  wf.congr rfl rfl rfl rfl

theorem WellFormed.ioSaveBranchData {t : Tree} (wf : t.WellFormed) (b : BranchPtr) :
    (ioSaveBranchData t b).WellFormed := by
  rcases ioSaveBranchData_fields t b with ⟨mem, next, root, index, _, _⟩
  exact wf.congr mem next root index

theorem WellFormed.relabel {t : Tree} (wf : t.WellFormed) (b : BranchPtr) (text : CString)
    (noteId : UInt64) :
    (t.modify b fun x => { x with text := text, noteId := noteId }).WellFormed := by
  have same : SameLinks t (t.modify b fun x => { x with text := text, noteId := noteId }) := by
    refine ⟨rfl, fun x => ?_⟩
    simp only [parent, children, modify_mem]
    refine ⟨?_, ?_, ?_⟩
    · split <;> rfl
    · split <;> rfl
    · split <;> rfl
  have ids : ∀ x, ((t.modify b fun x => { x with text := text, noteId := noteId }).mem x).id =
      (t.mem x).id := by
    intro x
    simp only [modify_mem]
    split <;> rfl
  refine ⟨same.shape wf.toShape, wf.root_lt, ?_, ?_, ?_, ?_⟩
  · exact (same.2 _).1.trans wf.root_parent
  · rw [ids]
    exact wf.root_index
  · intro k x stored
    rw [ids]
    exact wf.index_spec stored
  · intro x q step
    rw [(same.2 x).1] at step
    rw [ids]
    exact wf.index_of_parent step

namespace Edit

variable (t : Tree) (pb b : BranchPtr) (new : Branch) (i : ℕ) (text : CString) (noteId : UInt64)

theorem grow_apply_mem : ((grow pb new i).apply t).mem = (t.grow pb new i).mem :=
  (ioSaveBranchData_fields _ _).1

theorem grow_apply_index :
    ((grow pb new i).apply t).branchIndex = (t.grow pb new i).branchIndex :=
  (ioSaveBranchData_fields _ _).2.2.2.1

theorem relabel_apply_mem :
    ((relabel b text noteId).apply t).mem =
      (t.modify b fun x => { x with text := text, noteId := noteId }).mem :=
  (ioSaveBranchData_fields _ _).1

/-- The root never changes. -/
theorem apply_branch (e : Edit) : (e.apply t).branch = t.branch := by
  cases e with
  | grow pb new i => exact (ioSaveBranchData_fields _ _).2.2.1
  | rehome b opb npb i => rfl
  | forget b p => rfl
  | relabel b text noteId => exact (ioSaveBranchData_fields _ _).2.2.1

end Edit

/-- Every allowed edit keeps a tree well-formed. -/
theorem WellFormed.apply {t : Tree} (wf : t.WellFormed) {e : Edit} (allowed : e.Allowed t) :
    (e.apply t).WellFormed := by
  cases e with
  | grow pb new i =>
      rcases allowed with ⟨fresh, _, indexed, unused, room, inside⟩
      exact ((wf.grow fresh indexed unused room inside).flush _).ioSaveBranchData _
  | rehome b opb npb i =>
      rcases allowed with ⟨step, indexed, apart, room, inside⟩
      exact (wf.rehome step (wf.indexed_lt indexed) apart room inside).flush _
  | forget b p => exact (wf.forget allowed).flush _
  | relabel b text noteId => exact (wf.relabel b text noteId).ioSaveBranchData b

theorem Edits.branch_eq {P : Tree → Edit → Prop} {t t' : Tree} (edits : Edits P t t') :
    t'.branch = t.branch := by
  induction edits with
  | nil => rfl
  | cons e _ _ _ ih => exact ih.trans (e.apply_branch _)

theorem Edits.wellFormed {P : Tree → Edit → Prop} {t t' : Tree} (edits : Edits P t t')
    (wf : t.WellFormed) : t'.WellFormed :=
  edits.invariant (fun _ _ wf allowed _ => wf.apply allowed) wf

/-- A property that every allowed edit of a well-formed tree keeps is kept by all of them. -/
theorem Edits.invariant_wellFormed {P : Tree → Edit → Prop} {R : Tree → Prop} {t t' : Tree}
    (keeps : ∀ t e, t.WellFormed → R t → e.Allowed t → P t e → R (e.apply t))
    (edits : Edits P t t') (wf : t.WellFormed) (start : R t) : R t' := by
  induction edits with
  | nil => exact start
  | cons e allowed holds _ ih =>
      apply ih (wf.apply allowed)
      exact keeps _ e wf start allowed holds

/-! ## The tree part of the operations -/

section Operations

variable {t : Tree} {b pb opb npb : BranchPtr}

/-- The branch that `insert` allocates. -/
def newBranch (t : Tree) (branchId : UInt64) (branchText : CString)
    (branchMarkId branchDocumentId : UInt64) : Branch where
  id := branchId
  findex := t.branchN
  text := utf8slice branchText 5000
  noteId := if branchDocumentId ≠ 0 ∧ branchMarkId ≠ 0 then branchDocumentId else 0

theorem newBranch_fresh (t : Tree) (branchId : UInt64) (branchText : CString)
    (branchMarkId branchDocumentId : UInt64) :
    Fresh (t.newBranch branchId branchText branchMarkId branchDocumentId) :=
  ⟨rfl, rfl, rfl, rfl⟩

theorem WellFormed.insertBranch_eq (wf : t.WellFormed) (indexed : t.Indexed pb)
    (branchId : UInt64) (branchPos : UInt32) (branchText : CString)
    (branchMarkId branchDocumentId : UInt64) :
    insertBranch t pb branchId branchPos branchText branchMarkId branchDocumentId =
      if (t.children pb).length = 65535 then .error .childOverflow
      else .ok ((Edit.grow pb (t.newBranch branchId branchText branchMarkId branchDocumentId)
        (insertPos branchPos.toInt32.toInt (t.children pb).length)).apply t, t.next) := by
  have fresh := t.newBranch_fresh branchId branchText branchMarkId branchDocumentId
  have added := (wf.toShape.alloc fresh).branchAdd_eq
    (wf.canLink_alloc fresh (wf.indexed_lt indexed)) branchPos.toInt32.toInt
  rw [wf.alloc_children fresh] at added
  change (branchAdd (t.alloc (t.newBranch branchId branchText branchMarkId branchDocumentId))
    t.next pb branchPos.toInt32.toInt >>= fun t' =>
      .ok (ioBranchNew (branchIndexPut t' t.next) t.next, t.next)) = _
  rw [added]
  by_cases full : (t.children pb).length = 65535
  · rw [if_pos full, if_pos full, error_bind]
  · rw [if_neg full, if_neg full, ok_bind]
    rfl

theorem WellFormed.moveBranch_eq (wf : t.WellFormed) (step : t.parent b = some opb)
    (indexed : t.Indexed npb) (apart : ¬Anc t.parent npb b) (branchPos : UInt16) :
    moveBranch t b opb npb branchPos =
      if ((t.unlink b opb).children npb).length = 65535 then .error .childOverflow
      else .ok ((Edit.rehome b opb npb
        (insertPos branchPos.toNat ((t.unlink b opb).children npb).length)).apply t) := by
  have added := (wf.toShape.unlink step).branchAdd_eq
    (wf.canLink_unlink step (wf.indexed_lt indexed) apart) (branchPos.toNat : ℤ)
  simp only [moveBranch, wf.branchDetach_eq step, added]
  by_cases full : ((t.unlink b opb).children npb).length = 65535
  · rw [if_pos full, if_pos full, error_bind]
  · rw [if_neg full, if_neg full, ok_bind]
    rfl

theorem WellFormed.deleteBranch_eq (wf : t.WellFormed) (step : t.parent b = some pb) :
    deleteBranch t b pb = (Edit.forget b pb).apply t := by
  have cut : forgetBranch t b = t.forget b pb := by
    simp only [forgetBranch, wf.branchDetach_eq step]
    rfl
  rw [deleteBranch, cut]
  rfl

end Operations

end Tree

end Treedb
