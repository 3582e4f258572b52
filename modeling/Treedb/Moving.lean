import Treedb.Saving

/-!
# Moves

What an accepted move does to the tree, and how it is undone. A move cuts a branch from its parent and
links it below another one; cutting undoes linking, and linking a branch where it was undoes cutting
it. So a second move takes everything back, the counters and the records included.
-/

namespace Treedb

open Forest Outcome Treedb.Tree

/-! ## Cutting and linking -/

namespace Tree.Shape

variable {t : Tree} {c p : BranchPtr} {i : ℕ}

theorem mem_chain_link (shape : t.Shape) (can : t.CanLink c p) (after : (t.link c p i).Shape)
    (x : BranchPtr) : x ∈ (t.link c p i).chain p ↔ x ∈ t.chain p := by
  rw [after.mem_chain, shape.mem_chain, link_anc can]
  simp [can.apart]

theorem mem_chain_unlink (shape : t.Shape) (step : t.parent c = some p) (x : BranchPtr) :
    x ∈ (t.unlink c p).chain p ↔ x ∈ t.chain p := by
  rw [(shape.unlink step).mem_chain, shape.mem_chain, shape.unlink_anc]
  have apart : ¬Anc t.parent p c :=
    fun anc => shape.acyclic.not_anc_of_strict ((strictAnc_iff_of_parent step).mpr (anc_refl _ p)) anc
  simp [apart]

/-- Cutting a branch undoes linking it. -/
theorem unlink_link (shape : t.Shape) (can : t.CanLink c p) (after : (t.link c p i).Shape)
    (inside : i ≤ (t.children p).length) : (t.link c p i).unlink c p = t := by
  have onChain := shape.mem_chain_link can after
  have off : c ∉ t.chain p := by
    rw [shape.mem_chain]
    exact can.apart
  have unlisted : c ∉ t.children p := by
    intro member
    have pointed := shape.mirrors.mem_iff.mp member
    simp [can.free] at pointed
  ext1 <;> try rfl
  funext x
  simp only [Tree.unlink, onChain]
  ext1 <;> try rfl
  · simp only [Tree.link]
    split
    · rename_i isC
      rw [isC]
      exact can.free.symm
    · rfl
  · simp only [Tree.link]
    split
    · rename_i isP
      rw [isP]
      exact erase_insertIdx_self (shape.mirrors.nodup p) unlisted inside
    · rfl
  · simp only [Tree.link]
    split <;> simp
  · simp only [Tree.link, if_neg off]
    split
    · grind
    · rfl

/-- Linking a branch where it was undoes cutting it. -/
theorem link_unlink (shape : t.Shape) (step : t.parent c = some p) :
    (t.unlink c p).link c p ((t.children p).idxOf c) = t := by
  have onChain := shape.mem_chain_unlink step
  have off : c ∉ t.chain p := by
    rw [shape.mem_chain]
    exact shape.acyclic.not_anc_of_strict ((strictAnc_iff_of_parent step).mpr (anc_refl _ p))
  ext1 <;> try rfl
  funext x
  simp only [Tree.link, onChain]
  ext1 <;> try rfl
  · simp only [Tree.unlink]
    split
    · rename_i isC
      rw [isC]
      exact step.symm
    · rfl
  · simp only [Tree.unlink]
    split
    · rename_i isP
      rw [isP]
      exact insertIdx_erase_self (shape.mirrors.mem_iff.mpr step)
    · rfl
  · simp only [Tree.unlink]
    split <;> simp
  · simp only [Tree.unlink, if_neg off]
    split
    · grind
    · rfl

end Tree.Shape
/-! ## The effect of a move -/

/-- The tree after `b` was moved from `opb` to `npb`; `pos` is the position asked for. -/
structure Tree.Moved (t t' : Tree) (b opb npb : BranchPtr) (pos : UInt16) : Prop where
  target : t'.children npb =
    ((t.children npb).erase b).insertIdx (min pos.toNat ((t.children npb).erase b).length) b
  source : opb ≠ npb → t'.children opb = (t.children opb).erase b
  children_eq : ∀ x, x ≠ npb → x ≠ opb → t'.children x = t.children x
  parent_b : t'.parent b = some npb
  parent_eq : ∀ x, x ≠ b → t'.parent x = t.parent x
  subtree : ∀ x, Anc t.parent x b → t'.children x = t.children x ∧ Anc t'.parent x b
  index : t'.branchIndex = t.branchIndex
  fewer : ∀ x, Anc t.parent opb x → ¬Anc t.parent npb x →
    (t'.mem x).totalBranchN = (t.mem x).totalBranchN - ((t.mem b).totalBranchN + 1)
  more : ∀ x, Anc t.parent npb x → ¬Anc t.parent opb x →
    (t'.mem x).totalBranchN = (t.mem x).totalBranchN + ((t.mem b).totalBranchN + 1)
  total_eq : ∀ x, (Anc t.parent opb x ↔ Anc t.parent npb x) →
    (t'.mem x).totalBranchN = (t.mem x).totalBranchN

section Moved

variable {t : Tree} {m m' : Map} {view : Option ViewPtr} {b opb npb : BranchPtr} {pos : UInt16}
  {newParentId oldParentId branchId : UInt64}

theorem unlink_children_target (wf : t.WellFormed) (step : t.parent b = some opb)
    (npb : BranchPtr) : (t.unlink b opb).children npb = (t.children npb).erase b := by
  rw [Shape.unlink_children]
  split
  · rfl
  · rename_i other
    rw [List.erase_of_not_mem]
    intro member
    have step' := wf.mirrors.mem_iff.mp member
    rw [step, Option.some.injEq] at step'
    exact other step'.symm

theorem rehome_total (wf : t.WellFormed) (step : t.parent b = some opb)
    (apart : ¬Anc t.parent npb b) {i : ℕ} (x : BranchPtr) :
    ((t.rehome b opb npb i).mem x).totalBranchN =
      (if x ∈ t.chain opb then (t.mem x).totalBranchN + (-(t.mem b).totalBranchN - 1)
        else (t.mem x).totalBranchN) +
      (if x ∈ t.chain npb then (t.mem b).totalBranchN + 1 else 0) := by
  have climbed : x ∈ (t.unlink b opb).chain npb ↔ x ∈ t.chain npb := by
    rw [(wf.toShape.unlink step).mem_chain, wf.unlink_anc, wf.mem_chain]
    simp [apart]
  have off : b ∉ t.chain opb := by
    rw [wf.mem_chain]
    exact wf.acyclic.not_anc_of_strict ((strictAnc_iff_of_parent step).mpr (anc_refl _ opb))
  have left : ((t.unlink b opb).mem b).totalBranchN = (t.mem b).totalBranchN := if_neg off
  simp only [Tree.rehome, Tree.link, climbed, left]
  simp only [Tree.unlink]
  split <;> simp

/-- The way from a branch up to `b` does not pass the parent of `b`. -/
theorem anc_of_parent_eq {parent parent' : BranchPtr → Option BranchPtr}
    (same : ∀ x, x ≠ b → parent' x = parent x) {x : BranchPtr} (anc : Anc parent x b) :
    Anc parent' x b := by
  induction anc using Relation.ReflTransGen.head_induction_on with
  | refl => exact anc_refl _ b
  | @head x p step _ ih =>
      by_cases here : x = b
      · rw [here]
      · have step' : parent' x = some p := (same x here).trans step
        exact (anc_of_parent step').trans ih

/-- The tree after the edit that a move makes. -/
theorem moved_rehome (wf : t.WellFormed) (step : t.parent b = some opb)
    (apart : ¬Anc t.parent npb b) :
    t.Moved ((Edit.rehome b opb npb
      (insertPos pos.toNat ((t.unlink b opb).children npb).length)).apply t) b opb npb pos := by
  have target := unlink_children_target wf step npb
  have parents := rehome_parent t b opb npb (insertPos pos.toNat ((t.unlink b opb).children npb).length)
  have lists := rehome_children t b opb npb (insertPos pos.toNat ((t.unlink b opb).children npb).length)
  have totals := fun x => rehome_total wf step apart
    (i := insertPos pos.toNat ((t.unlink b opb).children npb).length) x
  have others : ∀ x, x ≠ npb → x ≠ opb →
      (t.rehome b opb npb (insertPos pos.toNat ((t.unlink b opb).children npb).length)).children x =
        t.children x := by
    intro x notNew notOld
    rw [lists, if_neg notNew, Shape.unlink_children, if_neg notOld]
  refine ⟨?_, ?_, others, ?_, ?_, ?_, rfl, ?_, ?_, ?_⟩
  · refine (lists npb).trans ?_
    rw [if_pos rfl, target, insertPos_nat]
  · intro other
    refine (lists opb).trans ?_
    rw [if_neg other, Shape.unlink_children, if_pos rfl]
  · refine (parents b).trans ?_
    rw [if_pos rfl]
  · intro x other
    refine (parents x).trans ?_
    rw [if_neg other]
  · intro x below
    have strict := (strictAnc_iff_of_parent step).mpr (anc_refl _ opb)
    refine ⟨others x ?_ ?_, ?_⟩
    · rintro rfl
      exact apart below
    · rintro rfl
      exact wf.acyclic.not_anc_of_strict strict below
    · apply anc_of_parent_eq _ below
      intro y other
      refine (parents y).trans ?_
      rw [if_neg other]
  · intro x old new
    refine (totals x).trans ?_
    rw [if_pos (wf.mem_chain.mpr old), if_neg (mt wf.mem_chain.mp new)]
    grind
  · intro x new old
    refine (totals x).trans ?_
    rw [if_neg (mt wf.mem_chain.mp old), if_pos (wf.mem_chain.mpr new)]
  · intro x both
    refine (totals x).trans ?_
    by_cases old : Anc t.parent opb x
    · rw [if_pos (wf.mem_chain.mpr old), if_pos (wf.mem_chain.mpr (both.mp old))]
      grind
    · rw [if_neg (mt wf.mem_chain.mp old), if_neg (mt wf.mem_chain.mp (mt both.mpr old))]
      simp

theorem rehome_allowed (wf : t.WellFormed) (room : (t.children npb).length < 65535)
    (step : t.parent b = some opb) (indexed : t.Indexed npb) (apart : ¬Anc t.parent npb b)
    (pos : UInt16) :
    (Edit.rehome b opb npb
      (insertPos pos.toNat ((t.unlink b opb).children npb).length)).Allowed t := by
  refine ⟨step, indexed, apart, ?_, insertPos_le _ _⟩
  rw [unlink_children_target wf step npb]
  exact (List.length_erase_le ..).trans_lt room

/--
A branch that is asked to move below `npb` from its current parent, where `npb` is not in its subtree,
is put at the position asked for or at the end. The tree part of the move comes to its end, and what
the views do is of no account for it.
-/
theorem move_moved (wf : m.tree.WellFormed) (room : ∀ x, (m.tree.children x).length < 65535)
    (found : branchIndexGet m.tree branchId = some b) (step : m.tree.parent b = some opb)
    (target : branchIndexGet m.tree newParentId = some npb)
    (current : (m.tree.mem opb).id = oldParentId) (apart : ¬Anc m.tree.parent npb b)
    (pos : UInt16) :
    ∃ t', moveBranch m.tree b opb npb pos = .ok t' ∧ m.tree.Moved t' b opb npb pos ∧
      ∀ view m' accepted, move m view newParentId oldParentId branchId pos = .ok (m', accepted) →
        accepted = true ∧ m'.tree = t' := by
  have indexed : m.tree.Indexed npb := ⟨_, target⟩
  have allowed := rehome_allowed wf (room npb) step indexed apart pos
  have accept := (moveCheck_accept wf).mpr ⟨found, step, target, current, apart⟩
  refine ⟨_, ?_, moved_rehome wf step apart, ?_⟩
  · rw [wf.moveBranch_eq step indexed apart, if_neg (Nat.ne_of_lt allowed.2.2.2.1)]
  · intro view m' accepted run
    rcases move_of_accept wf accept run with ⟨_, same, done⟩
    exact ⟨done, same⟩

/-- A branch moves from below its sibling to the root, in front of it. -/
theorem move_moved_example :
    ∃ m t', (mapCreateEmpty 1).run [.insert 0 1 2 0 [] 0 0, .insert 0 2 3 0 [] 0 0] = .ok m ∧
      moveBranch m.tree 2 1 0 0 = .ok t' ∧ m.tree.Moved t' 2 1 0 0 := by
  have observed : ((mapCreateEmpty 1).run
      [.insert 0 1 2 0 [] 0 0, .insert 0 2 3 0 [] 0 0]).toOption.map (fun m =>
        ((m.tree.next, m.tree.parent 0, m.tree.parent 2),
          (branchIndexGet m.tree 3, branchIndexGet m.tree 1, (m.tree.mem 1).id))) =
      some ((3, none, some 1), (some 2, some 0, 2)) := by
    decide +kernel
  cases run : (mapCreateEmpty 1).run [.insert 0 1 2 0 [] 0 0, .insert 0 2 3 0 [] 0 0] with
  | error e => simp [run, Except.toOption] at observed
  | ok m =>
      simp only [run, Except.toOption, Option.map_some, Option.some.injEq, Prod.mk.injEq] at observed
      rcases observed with ⟨⟨next, top, step⟩, found, target, current⟩
      have wf := run_wellFormed (mapCreateEmpty_holdsOnlyRoot 1).wellFormed run
      have room := wf.children_length_lt (by omega)
      have apart : ¬Anc m.tree.parent 0 2 := by
        rw [anc_iff_of_root top]
        decide
      rcases move_moved wf room found step target current apart 0 with ⟨t', moved, effect, _⟩
      exact ⟨m, t', rfl, moved, effect⟩

end Moved

end Treedb
