import Treedb.Tree.Edit

/-!
# Records and edits

The record of a branch names its id, its parent, its position and the number of its children. An
edit writes the records of a few branches only: those it links or cuts, and the siblings that come
after them. All other records are the same before and after the edit.
-/

namespace Treedb

open Forest RecordFile

/-! ## Positions in a list -/

section Positions

variable {α : Type} [DecidableEq α] {l : List α} {x a : α} {i : ℕ}

theorem idxOf_lt_of_not_mem_drop (member : x ∈ l) (early : x ∉ l.drop i) : l.idxOf x < i := by
  by_contra late
  apply early
  have inside := List.idxOf_lt_length_of_mem member
  rw [List.mem_drop_iff_getElem]
  refine ⟨l.idxOf x - i, by omega, ?_⟩
  simp only [show i + (l.idxOf x - i) = l.idxOf x by omega]
  exact List.getElem_idxOf inside

theorem idxOf_of_getElem? (nodup : l.Nodup) (found : l[i]? = some x) : l.idxOf x = i := by
  rcases List.getElem?_eq_some_iff.mp found with ⟨inside, rfl⟩
  exact nodup.idxOf_getElem i inside

/-- An insertion does not move what stands before it. -/
theorem idxOf_insertIdx_of_lt (nodup : l.Nodup) (inside : i ≤ l.length)
    (lower : (l.insertIdx i a).idxOf x < i) : l.idxOf x = (l.insertIdx i a).idxOf x := by
  apply idxOf_of_getElem? nodup
  have short : (l.insertIdx i a).idxOf x < (l.insertIdx i a).length := by
    rw [List.length_insertIdx_of_le_length inside]
    omega
  have found := List.getElem?_eq_getElem short
  rw [List.getElem_idxOf short, List.getElem?_insertIdx_of_lt lower] at found
  exact found

/-- An erasure does not move what stands before it. -/
theorem idxOf_erase_of_lt (nodup : l.Nodup) (member : a ∈ l)
    (lower : (l.erase a).idxOf x < l.idxOf a) : l.idxOf x = (l.erase a).idxOf x := by
  apply idxOf_of_getElem? nodup
  have bound := List.idxOf_lt_length_of_mem member
  have short : (l.erase a).idxOf x < (l.erase a).length := by
    rw [List.length_erase_of_mem member]
    omega
  have found := List.getElem?_eq_getElem short
  rw [List.getElem_idxOf short] at found
  generalize (l.erase a).idxOf x = k at lower found
  rw [List.erase_eq_eraseIdx_of_idxOf rfl, List.getElem?_eraseIdx_of_lt lower] at found
  exact found

theorem idxOf_insertIdx_self (nodup : l.Nodup) (fresh : a ∉ l) (inside : i ≤ l.length) :
    (l.insertIdx i a).idxOf a = i := by
  apply idxOf_of_getElem?
  · rw [(List.perm_insertIdx a l inside).nodup_iff]
    exact List.nodup_cons.mpr ⟨fresh, nodup⟩
  · rw [List.getElem?_insertIdx_self, if_pos inside]

theorem erase_insertIdx_self (nodup : l.Nodup) (fresh : a ∉ l) (inside : i ≤ l.length) :
    (l.insertIdx i a).erase a = l := by
  rw [List.erase_eq_eraseIdx_of_idxOf (idxOf_insertIdx_self nodup fresh inside),
    List.eraseIdx_insertIdx_self]

theorem insertIdx_erase_self (member : a ∈ l) : (l.erase a).insertIdx (l.idxOf a) a = l := by
  have inside := List.idxOf_lt_length_of_mem member
  have restored := List.insertIdx_eraseIdx_getElem inside
  rw [List.getElem_idxOf inside] at restored
  rw [List.erase_eq_eraseIdx_of_idxOf rfl]
  exact restored

end Positions

/-! ## Records -/

namespace Tree

variable {t t' : Tree} {b p x : BranchPtr}

theorem Shape.branchGetPos_eq (shape : t.Shape) (step : t.parent b = some p) :
    branchGetPos t b = ((t.children p).idxOf b : ℤ) := by
  have listed : b ∈ t.children p := shape.mirrors.mem_iff.mpr step
  have found : (t.children p).findIdx? (fun c => c = b) = some ((t.children p).idxOf b) := by
    rw [List.findIdx?_eq_some_iff_findIdx_eq]
    exact ⟨List.idxOf_lt_length_of_mem listed, rfl⟩
  simp only [branchGetPos, show (t.mem b).parent = some p from step, shape.take_children, found]

/-- A position fits into 16 bits. -/
theorem Shape.pos_toNat (shape : t.Shape) (step : t.parent b = some p) :
    (UInt16.ofInt (branchGetPos t b)).toNat = (t.children p).idxOf b := by
  have listed : b ∈ t.children p := shape.mirrors.mem_iff.mpr step
  have bound := List.idxOf_lt_length_of_mem listed
  have short := shape.children_length_le p
  rw [shape.branchGetPos_eq step, UInt16.ofInt, UInt16.toNat_ofNat']
  omega

theorem Shape.record_of_parent (shape : t.Shape) (step : t.parent b = some p) :
    (t.record b).parentId = (t.mem p).id ∧ (t.record b).pos.toNat = (t.children p).idxOf b := by
  rw [← shape.pos_toNat step]
  simp only [record, show (t.mem b).parent = some p from step, and_self]

theorem record_of_root (top : t.parent b = none) : (t.record b).parentId = 0 := by
  simp only [record, show (t.mem b).parent = none from top]

theorem record_id (t : Tree) (b : BranchPtr) : (t.record b).id = (t.mem b).id := by
  unfold record
  split <;> rfl

theorem record_childN (t : Tree) (b : BranchPtr) : (t.record b).childN = (t.mem b).childN := by
  unfold record
  split <;> rfl

/-- A record depends only on the branch, the id of its parent and its position there. -/
theorem Shape.record_eq (shape : t.Shape) (shape' : t'.Shape) (parents : t'.parent x = t.parent x)
    (ids : (t'.mem x).id = (t.mem x).id)
    (lengths : (t'.children x).length = (t.children x).length)
    (place : ∀ p, t.parent x = some p → (t'.mem p).id = (t.mem p).id ∧
      (t'.children p).idxOf x = (t.children p).idxOf x) : t'.record x = t.record x := by
  have counts : (t'.mem x).childN = (t.mem x).childN := by
    apply UInt16.toNat_inj.mp
    rw [shape'.childN_eq, shape.childN_eq, lengths]
  cases step : t.parent x with
  | none =>
      have step' : t'.parent x = none := parents.trans step
      simp only [record, show (t.mem x).parent = none from step,
        show (t'.mem x).parent = none from step', ids, counts]
  | some p =>
      have step' : t'.parent x = some p := parents.trans step
      rcases place p step with ⟨parentId, pos⟩
      simp only [record, show (t.mem x).parent = some p from step,
        show (t'.mem x).parent = some p from step', ids, counts, parentId,
        shape.branchGetPos_eq step, shape'.branchGetPos_eq step', pos]

/-- The heads of two trees with the same memory are the same. -/
theorem ioSaveBranchHead_congr (same : t'.mem = t.mem) (b : BranchPtr) :
    ioSaveBranchHead t' b = ioSaveBranchHead t b := by
  have pos : branchGetPos t' b = branchGetPos t b := by
    simp only [branchGetPos, same]
  simp only [ioSaveBranchHead, record, same, pos]

/-! ## The writes of an edit -/

namespace Edit

/-- The tree before anything is saved. -/
def memory (t : Tree) : Edit → Tree
  | grow pb new i => t.grow pb new i
  | rehome b opb npb i => t.rehome b opb npb i
  | forget b p => t.forget b p
  | relabel b text noteId => t.modify b fun x => { x with text := text, noteId := noteId }

/-- The records that the edit writes, in order. -/
def writes (t : Tree) : Edit → List Write
  | grow pb new i => ioBranchNewWrites (t.grow pb new i) t.next
  | rehome b opb npb i =>
      ioBranchMoved (t.rehome b opb npb i) b opb (UInt16.ofInt (branchGetPos t b))
  | forget b p =>
      ioBranchDeleted (t.forget b p) b p (UInt16.ofNat ((branchGetPos t b) % 256).toNat)
  | relabel .. => []

/-- The branches whose records the edit writes, in order. -/
def touched (t : Tree) : Edit → List BranchPtr
  | grow pb new i => [t.next, pb] ++ ((t.grow pb new i).children pb).drop i
  | rehome b opb npb i =>
      [b, npb, opb] ++ ((t.rehome b opb npb i).children npb).drop (i + 1) ++
        ((t.rehome b opb npb i).children opb).drop ((t.children opb).idxOf b)
  | forget b p => [b, p] ++ ((t.forget b p).children p).drop ((t.children p).idxOf b % 256)
  | relabel .. => []

variable {e : Edit}

theorem apply_fields (t : Tree) (e : Edit) :
    (e.apply t).mem = (e.memory t).mem ∧ (e.apply t).next = (e.memory t).next ∧
      (e.apply t).branch = (e.memory t).branch ∧
      (e.apply t).branchIndex = (e.memory t).branchIndex ∧
      (e.apply t).branchN = (e.memory t).branchN ∧
      (e.apply t).bhead = (e.writes t).foldl applyWrite t.bhead := by
  cases e with
  | grow pb new i => exact ioSaveBranchData_fields _ _
  | rehome b opb npb i => exact ⟨rfl, rfl, rfl, rfl, rfl, rfl⟩
  | forget b p => exact ⟨rfl, rfl, rfl, rfl, rfl, rfl⟩
  | relabel b text noteId => exact ioSaveBranchData_fields _ _

theorem memory_wellFormed (wf : t.WellFormed) (allowed : e.Allowed t) :
    (e.memory t).WellFormed := by
  rcases apply_fields t e with ⟨mem, next, root, index, _, _⟩
  exact (wf.apply allowed).congr mem.symm next.symm root.symm index.symm

theorem writes_eq (wf : t.WellFormed) (allowed : e.Allowed t) :
    e.writes t = (e.touched t).map (ioSaveBranchHead (e.memory t)) := by
  have after := memory_wellFormed wf allowed
  cases e with
  | grow pb new i =>
      change (t.grow pb new i).WellFormed at after
      rcases allowed with ⟨fresh, _, indexed, _, _, inside⟩
      have step : (t.grow pb new i).parent t.next = some pb := by
        rw [wf.grow_parent fresh, if_pos rfl]
      have pos : (UInt16.ofInt (branchGetPos (t.grow pb new i) t.next)).toNat = i := by
        rw [after.pos_toNat step, wf.grow_children fresh, if_pos rfl]
        apply idxOf_insertIdx_self (wf.mirrors.nodup pb) _ inside
        intro listed
        have old := wf.mirrors.mem_iff.mp listed
        rw [wf.next_parent] at old
        simp at old
      simp only [writes, ioBranchNewWrites, touched, memory, ioChildsReordered,
        show ((t.grow pb new i).mem t.next).parent = some pb from step, pos]
      rw [after.take_children pb]
      simp
  | rehome b opb npb i =>
      change (t.rehome b opb npb i).WellFormed at after
      rcases allowed with ⟨step, _, _, room, inside⟩
      have step' : (t.rehome b opb npb i).parent b = some npb := by
        rw [rehome_parent, if_pos rfl]
      have cut := wf.toShape.unlink step
      have pos : (UInt16.ofInt (branchGetPos (t.rehome b opb npb i) b)).toNat = i := by
        rw [after.pos_toNat step', rehome_children, if_pos rfl]
        apply idxOf_insertIdx_self (cut.mirrors.nodup npb) _ inside
        intro listed
        have old := cut.mirrors.mem_iff.mp listed
        simp [Shape.unlink_parent] at old
      have nextPos : (UInt16.ofInt (branchGetPos (t.rehome b opb npb i) b) + 1).toNat = i + 1 := by
        rw [UInt16.toNat_add, pos, UInt16.toNat_one]
        omega
      simp only [writes, ioBranchMoved, touched, memory, ioChildsReordered,
        show ((t.rehome b opb npb i).mem b).parent = some npb from step', nextPos,
        wf.pos_toNat step]
      rw [after.take_children npb, after.take_children opb]
      simp
  | forget b p =>
      change (t.forget b p).WellFormed at after
      have pos : (UInt16.ofNat ((branchGetPos t b) % 256).toNat).toNat =
          (t.children p).idxOf b % 256 := by
        rw [wf.branchGetPos_eq allowed, UInt16.toNat_ofNat']
        omega
      simp only [writes, ioBranchDeleted, touched, memory, ioChildsReordered, pos]
      rw [after.take_children p]
      simp
  | relabel b text noteId => rfl

theorem memory_findex (t : Tree) (e : Edit) (old : x ≠ t.next) :
    ((e.memory t).mem x).findex = (t.mem x).findex := by
  cases e with
  | grow pb new i =>
      change ((t.alloc new).mem x).findex = _
      rw [alloc_mem_of_ne t new old]
  | rehome b opb npb i => rfl
  | forget b p =>
      simp only [memory, Tree.forget, modify_mem]
      split <;> rfl
  | relabel b text noteId =>
      simp only [memory, modify_mem]
      split <;> rfl

/-! ## Records that are not written -/

section Untouched

variable {pb opb npb : BranchPtr} {new : Branch} {i : ℕ}

theorem grow_record (wf : t.WellFormed) (allowed : (grow pb new i).Allowed t)
    (old : x ≠ t.next) (untouched : x ∉ (grow pb new i).touched t) :
    (t.grow pb new i).record x = t.record x := by
  have after : (t.grow pb new i).WellFormed := memory_wellFormed wf allowed
  rcases allowed with ⟨fresh, _, indexed, _, _, inside⟩
  simp only [touched, List.mem_append, List.mem_cons, List.not_mem_nil, or_false, not_or] at untouched
  rcases untouched with ⟨⟨_, notParent⟩, early⟩
  have parents : (t.grow pb new i).parent x = t.parent x := by
    rw [wf.grow_parent fresh, if_neg old]
  apply wf.toShape.record_eq after.toShape parents
  · rw [grow_id, if_neg old]
  · rw [wf.grow_children fresh, if_neg notParent]
  · intro p step
    have allocated := (wf.parent_lt step).2
    refine ⟨by rw [grow_id, if_neg (Nat.ne_of_lt allocated)], ?_⟩
    by_cases same : p = pb
    · subst same
      have listed : x ∈ (t.grow p new i).children p :=
        after.mirrors.mem_iff.mpr (parents.trans step)
      have lower := idxOf_lt_of_not_mem_drop listed early
      rw [wf.grow_children fresh, if_pos rfl] at lower ⊢
      exact (idxOf_insertIdx_of_lt (wf.mirrors.nodup p) inside lower).symm
    · rw [wf.grow_children fresh, if_neg same]

theorem rehome_record (wf : t.WellFormed) (allowed : (rehome b opb npb i).Allowed t)
    (untouched : x ∉ (rehome b opb npb i).touched t) :
    (t.rehome b opb npb i).record x = t.record x := by
  have after : (t.rehome b opb npb i).WellFormed := memory_wellFormed wf allowed
  rcases allowed with ⟨step, _, _, _, inside⟩
  have cut := wf.toShape.unlink step
  have listedB : b ∈ t.children opb := wf.mirrors.mem_iff.mpr step
  simp only [touched, List.mem_append, List.mem_cons, List.not_mem_nil, or_false, not_or] at untouched
  rcases untouched with ⟨⟨⟨other, notNew, notOld⟩, earlyNew⟩, earlyOld⟩
  have parents : (t.rehome b opb npb i).parent x = t.parent x := by
    rw [rehome_parent, if_neg other]
  apply wf.toShape.record_eq after.toShape parents rfl
  · rw [rehome_children, if_neg notNew, Shape.unlink_children, if_neg notOld]
  · intro p stepX
    refine ⟨rfl, ?_⟩
    have listed : x ∈ (t.rehome b opb npb i).children p :=
      after.mirrors.mem_iff.mpr (parents.trans stepX)
    -- First the insertion below the new parent, then the erasure below the old one.
    have inserted : ((t.rehome b opb npb i).children p).idxOf x =
        ((t.unlink b opb).children p).idxOf x := by
      by_cases same : p = npb
      · subst same
        have lower := idxOf_lt_of_not_mem_drop listed earlyNew
        have notHere : ((t.rehome b opb p i).children p).idxOf x ≠ i := by
          intro here
          have found := List.getElem?_eq_getElem (List.idxOf_lt_length_of_mem listed)
          rw [List.getElem_idxOf, here, rehome_children, if_pos rfl, List.getElem?_insertIdx_self,
            if_pos inside] at found
          exact other (Option.some.inj found).symm
        rw [rehome_children, if_pos rfl] at lower notHere ⊢
        exact (idxOf_insertIdx_of_lt (cut.mirrors.nodup p) inside (by omega)).symm
      · rw [rehome_children, if_neg same]
    by_cases same : p = opb
    · subst same
      have lower := idxOf_lt_of_not_mem_drop listed earlyOld
      rw [inserted] at lower ⊢
      rw [Shape.unlink_children, if_pos rfl] at lower ⊢
      exact (idxOf_erase_of_lt (wf.mirrors.nodup p) listedB lower).symm
    · rw [inserted, Shape.unlink_children, if_neg same]

theorem forget_record (wf : t.WellFormed) (allowed : (forget b p).Allowed t)
    (leaf : t.children b = []) (untouched : x ∉ (forget b p).touched t) :
    (t.forget b p).record x = t.record x := by
  have after : (t.forget b p).WellFormed := memory_wellFormed wf allowed
  have listedB : b ∈ t.children p := wf.mirrors.mem_iff.mpr allowed
  simp only [touched, List.mem_append, List.mem_cons, List.not_mem_nil, or_false, not_or] at untouched
  rcases untouched with ⟨⟨other, notParent⟩, early⟩
  have parents : (t.forget b p).parent x = t.parent x := by
    rw [forget_parent, if_neg other]
  apply wf.toShape.record_eq after.toShape parents
  · rw [forget_id, if_neg other]
  · rw [forget_children, if_neg notParent]
  · intro q step
    have notCut : q ≠ b := by
      rintro rfl
      have child := wf.mirrors.mem_iff.mpr step
      simp [leaf] at child
    refine ⟨by rw [forget_id, if_neg notCut], ?_⟩
    by_cases same : q = p
    · subst same
      have listed : x ∈ (t.forget b q).children q :=
        after.mirrors.mem_iff.mpr (parents.trans step)
      have lower := idxOf_lt_of_not_mem_drop listed early
      have reached : (t.children q).idxOf b % 256 ≤ (t.children q).idxOf b := Nat.mod_le _ _
      rw [forget_children, if_pos rfl] at lower ⊢
      exact (idxOf_erase_of_lt (wf.mirrors.nodup q) listedB (by omega)).symm
    · rw [forget_children, if_neg same]

/-- The record of the forgotten branch is blank. -/
theorem forget_record_self (leaf : (t.mem b).childN = 0) (ne : b ≠ p) :
    (t.forget b p).record b = {} := by
  have gone : ((t.forget b p).mem b).parent = none := by
    have cut := forget_parent t b p b
    rwa [if_pos rfl] at cut
  have id : ((t.forget b p).mem b).id = 0 := by rw [forget_id, if_pos rfl]
  have count : ((t.forget b p).mem b).childN = 0 := by
    simp [Tree.forget, branchIndexDelete, unlink, ne, leaf]
  simp only [record, gone, id, count]

theorem relabel_record (wf : t.WellFormed) (text : CString) (noteId : UInt64) :
    ((relabel b text noteId).memory t).record x = t.record x := by
  have after : ((relabel b text noteId).memory t).WellFormed := wf.relabel b text noteId
  have fields : ∀ y, (((relabel b text noteId).memory t).mem y).id = (t.mem y).id ∧
      ((relabel b text noteId).memory t).parent y = t.parent y ∧
      ((relabel b text noteId).memory t).children y = t.children y := by
    intro y
    simp only [parent, children, memory, modify_mem]
    split <;> exact ⟨rfl, rfl, rfl⟩
  apply wf.toShape.record_eq after.toShape (fields x).2.1 (fields x).1
  · rw [(fields x).2.2]
  · intro p _
    exact ⟨(fields p).1, by rw [(fields p).2.2]⟩

end Untouched

end Edit

end Tree

end Treedb
