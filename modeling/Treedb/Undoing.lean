import Treedb.MovingViews

/-!
# Undoing moves

A move is undone by a move back to the old parent and the old position. The second move is accepted,
and it leaves the tree and the records of the file as they were before the first.
-/

namespace Treedb

open Forest Overlay Outcome RecordFile Treedb.Tree

/-- The tree is as before, and its file holds the same records. -/
def Tree.RestoredBy (t t' : Tree) : Prop :=
  ∃ file, t' = { t with bhead := file } ∧ SameRecords file t.bhead

section Undo

variable {t : Tree} {m m₁ m₂ : Map} {view : Option ViewPtr} {b opb npb x : BranchPtr}
  {newParentId oldParentId branchId : UInt64} {pos : UInt16} {accepted : Bool} {i : ℕ}

/-- Moving a branch away and back leaves the memory as it was. -/
theorem rehome_rehome (wf : t.WellFormed) (allowed : (Edit.rehome b opb npb i).Allowed t) :
    (t.rehome b opb npb i).rehome b npb opb ((t.children opb).idxOf b) = t := by
  rcases allowed with ⟨step, indexed, apart, room, inside⟩
  have shape := wf.toShape.unlink step
  have can := wf.canLink_unlink step (wf.indexed_lt indexed) apart
  calc (t.rehome b opb npb i).rehome b npb opb ((t.children opb).idxOf b)
      = (((t.unlink b opb).link b npb i).unlink b npb).link b opb ((t.children opb).idxOf b) := rfl
    _ = (t.unlink b opb).link b opb ((t.children opb).idxOf b) := by
        rw [shape.unlink_link can (shape.link can room inside) inside]
    _ = t := wf.toShape.link_unlink step

/-- A move writes records, which the memory does not depend on. -/
theorem rehome_apply_eq (t : Tree) (b opb npb : BranchPtr) (i : ℕ) :
    ∃ file, (Edit.rehome b opb npb i).apply t = { t.rehome b opb npb i with bhead := file } :=
  ⟨_, rfl⟩

theorem apply_rehome_rehome (wf : t.WellFormed) (allowed : (Edit.rehome b opb npb i).Allowed t) :
    ∃ file, (Edit.rehome b npb opb ((t.children opb).idxOf b)).apply
      ((Edit.rehome b opb npb i).apply t) = { t with bhead := file } := by
  rcases rehome_apply_eq t b opb npb i with ⟨file₁, first⟩
  rcases rehome_apply_eq ((Edit.rehome b opb npb i).apply t) b npb opb ((t.children opb).idxOf b) with
    ⟨file₂, second⟩
  refine ⟨file₂, ?_⟩
  have kept : ({ t.rehome b opb npb i with bhead := file₁ } : Tree).rehome b npb opb
      ((t.children opb).idxOf b) = { (t.rehome b opb npb i).rehome b npb opb
        ((t.children opb).idxOf b) with bhead := file₁ } := rfl
  rw [second, first, kept, rehome_rehome wf allowed]

/-- The way up from the old parent does not pass the branch after the move. -/
theorem not_anc_rehome (wf : t.WellFormed) (allowed : (Edit.rehome b opb npb i).Allowed t) :
    ¬Anc ((Edit.rehome b opb npb i).apply t).parent opb b := by
  intro up
  have before : Anc t.parent opb b := by
    apply anc_of_parent_eq _ up
    intro x other
    rw [(t.rehome_apply b opb npb i x).1, if_neg other]
  have strict := (strictAnc_iff_of_parent allowed.1).mpr (anc_refl _ opb)
  exact wf.acyclic.not_anc_of_strict strict before

/-- After a move, the request to move the branch back passes the checks. -/
theorem moveCheck_back (wf : t.WellFormed) (indexed : t.Indexed opb)
    (accept : moveCheck t newParentId oldParentId branchId = .accept b opb npb)
    (allowed : (Edit.rehome b opb npb i).Allowed t) :
    moveCheck ((Edit.rehome b opb npb i).apply t) oldParentId newParentId branchId =
      .accept b npb opb := by
  rcases (moveCheck_accept wf).mp accept with ⟨found, _, target, current, _⟩
  rw [moveCheck_accept (wf.apply allowed)]
  refine ⟨found, ?_, ?_, ?_, not_anc_rehome wf allowed⟩
  · rw [(t.rehome_apply b opb npb i b).1, if_pos rfl]
  · rcases indexed with ⟨k, stored⟩
    rw [← current, (wf.index_spec stored).1]
    exact stored
  · rw [(t.rehome_apply b opb npb i npb).2.1]
    exact (wf.index_spec target).1

/-- Where the old position is after the move. -/
theorem insertPos_back (wf : t.WellFormed) (allowed : (Edit.rehome b opb npb i).Allowed t) :
    insertPos (UInt16.ofNat ((t.children opb).idxOf b)).toNat
      ((((Edit.rehome b opb npb i).apply t).unlink b npb).children opb).length =
        (t.children opb).idxOf b := by
  rcases allowed with ⟨step, indexed, apart, room, inside⟩
  have shape := wf.toShape.unlink step
  have can := wf.canLink_unlink step (wf.indexed_lt indexed) apart
  have lists : (((Edit.rehome b opb npb i).apply t).unlink b npb).children opb =
      (t.unlink b opb).children opb := by
    change (((t.unlink b opb).link b npb i).unlink b npb).children opb = _
    rw [shape.unlink_link can (shape.link can room inside) inside]
  have member := wf.mirrors.mem_iff.mpr step
  have low := List.idxOf_lt_length_of_mem member
  have short := wf.children_length_le opb
  rw [lists, unlink_children_target wf step, List.length_erase_of_mem member, insertPos_nat,
    UInt16.toNat_ofNat']
  omega

/-- The old parent has room for the branch that it lost. -/
theorem room_back (wf : t.WellFormed) (allowed : (Edit.rehome b opb npb i).Allowed t)
    (room : (t.children opb).length < 65535) :
    (((Edit.rehome b opb npb i).apply t).children opb).length < 65535 := by
  rcases allowed with ⟨step, _, _, _, inside⟩
  have member := wf.mirrors.mem_iff.mpr step
  have some' := List.length_pos_of_mem member
  change ((t.rehome b opb npb i).children opb).length < 65535
  rw [rehome_children]
  split
  · rename_i same
    subst same
    rw [List.length_insertIdx_of_le_length inside, unlink_children_target wf step,
      List.length_erase_of_mem member]
    omega
  · rw [unlink_children_target wf step, List.length_erase_of_mem member]
    omega

theorem Tree.FullySaved.restored (wf : t.WellFormed) (saved : t.FullySaved)
    (fits : t.branchN.toNat * 20 < 2 ^ 32) (allowed : (Edit.rehome b opb npb i).Allowed t)
    (back : (Edit.rehome b npb opb ((t.children opb).idxOf b)).Allowed
      ((Edit.rehome b opb npb i).apply t)) :
    t.RestoredBy ((Edit.rehome b npb opb ((t.children opb).idxOf b)).apply
      ((Edit.rehome b opb npb i).apply t)) := by
  have inStep := saved.inStep wf fits
  have after := (inStep.apply wf allowed trivial fits).apply (wf.apply allowed) back trivial fits
  have holds := after.holds
  rcases apply_rehome_rehome wf allowed with ⟨file, same⟩
  rw [same] at holds ⊢
  have holds' : t.Holds file := ⟨holds.size, holds.record, holds.blank⟩
  exact ⟨file, rfl, holds'.sameRecords inStep.holds⟩

/--
An accepted move is undone by a move to the old parent and the old position. The second move is
accepted whenever it returns, and it returns if the views were faithful before the first move.
-/
theorem move_undone (wf : m.tree.WellFormed) (saved : m.tree.FullySaved)
    (room : ∀ x, (m.tree.children x).length < 65535) (fits : m.tree.branchN.toNat * 20 < 2 ^ 32)
    (moved : move m view newParentId oldParentId branchId pos = .ok (m₁, true)) :
    ∃ b opb, branchIndexGet m.tree branchId = some b ∧ m.tree.parent b = some opb ∧
      (∀ m₂ accepted, move m₁ none oldParentId newParentId branchId
          (UInt16.ofNat ((m.tree.children opb).idxOf b)) = .ok (m₂, accepted) →
        accepted = true ∧ m.tree.RestoredBy m₂.tree) ∧
      ((∀ vbr ∈ m.overlay.vbranchList m.tree.branch, SetFaithful m.tree m.overlay vbr.view) →
        ∃ m₂, move m₁ none oldParentId newParentId branchId
          (UInt16.ofNat ((m.tree.children opb).idxOf b)) = .ok (m₂, true)) := by
  have rooted := wf.nothingLost_iff.mp saved.nothingLost
  by_cases accepts : ∃ b opb npb,
      moveCheck m.tree newParentId oldParentId branchId = .accept b opb npb
  · rcases accepts with ⟨b, opb, npb, accept⟩
    rcases (moveCheck_accept wf).mp accept with ⟨found, step, _, _, _⟩
    rcases move_stages wf accept moved with ⟨allowed, after, looped, _⟩
    have indexed := rooted.parent_indexed wf step
    have back := moveCheck_back wf indexed accept allowed
    have place := insertPos_back wf allowed
    have wf₁ := wf.apply allowed
    rw [← after] at back place wf₁
    refine ⟨b, opb, found, step, ?_, ?_⟩
    · intro m₂ accepted run
      rcases move_of_accept wf₁ back run with ⟨allowed₁, restored, done⟩
      rw [place] at allowed₁ restored
      refine ⟨done, ?_⟩
      rw [restored, after]
      rw [after] at allowed₁
      exact saved.restored wf fits allowed allowed₁
    · intro faithful
      have movable := (SetFaithful.movable wf faithful b).loop
        (fun vbr member => ((setFaithful_iff wf).mp (faithful vbr member)).2) wf
        (rooted.leads allowed.2.1 _ b) allowed looped
      have rooted₁ := rooted.apply wf allowed trivial
      have room₁ := room_back wf allowed (room opb)
      rw [← after] at movable rooted₁ room₁
      exact move_total wf₁ rooted₁ movable room₁ back none _
  · have refused : ∀ b opb npb,
        moveCheck m.tree newParentId oldParentId branchId ≠ .accept b opb npb :=
      fun b opb npb accept => accepts ⟨b, opb, npb, accept⟩
    have done := (move_of_not_accept refused moved).2
    simp at done

/-- A grandchild of the root moves to the root and back. -/
theorem move_undone_example :
    ∃ m m₁ b opb, (mapCreateEmpty 1).run
        [.insert 0 1 2 0 [] 0 0, .insert 0 2 3 0 [] 0 0] = .ok m ∧
      move m none 1 2 3 5 = .ok (m₁, true) ∧ branchIndexGet m.tree 3 = some b ∧
      m.tree.parent b = some opb ∧
      ∀ m₂ accepted, move m₁ none 2 1 3
          (UInt16.ofNat ((m.tree.children opb).idxOf b)) = .ok (m₂, accepted) →
        accepted = true ∧ m.tree.RestoredBy m₂.tree := by
  have observed : ((mapCreateEmpty 1).run
      [.insert 0 1 2 0 [] 0 0, .insert 0 2 3 0 [] 0 0]).toOption.map (fun m =>
        (m.tree.next, (move m none 1 2 3 5).toOption.map Prod.snd)) = some (3, some true) := by
    decide +kernel
  cases run : (mapCreateEmpty 1).run [.insert 0 1 2 0 [] 0 0, .insert 0 2 3 0 [] 0 0] with
  | error e => simp [run, Except.toOption] at observed
  | ok m =>
      simp only [run, Except.toOption, Option.map_some, Option.some.injEq, Prod.mk.injEq] at observed
      rcases observed with ⟨next, answer⟩
      cases moved : move m none 1 2 3 5 with
      | error e => simp [moved] at answer
      | ok s =>
          rcases s with ⟨m₁, accepted⟩
          simp only [moved, Option.map_some, Option.some.injEq] at answer
          subst answer
          rcases run_fullySaved (by decide +kernel) run (by omega) with ⟨wf, saved, slots, room⟩
          rcases move_undone wf saved room (by omega) moved with
            ⟨b, opb, found, step, undone, _⟩
          exact ⟨m, m₁, b, opb, rfl, moved, found, step, undone⟩

end Undo

end Treedb
