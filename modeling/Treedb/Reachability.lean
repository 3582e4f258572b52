import Treedb.Structure

/-!
# Reachable branches and the index

The index should hold exactly the branches that are met from the root through child lists. Inserts
and moves see to this. A delete re-homes children in a loop over the very array from which each
move takes one entry, so that it skips every other child; what it skips stays in the index, below a
branch that is no longer part of the tree. With at most one child nothing is skipped, and as long as
only such branches are deleted nothing is lost.
-/

namespace Treedb

open Forest Outcome Treedb.Tree

namespace Tree

/-- The branch is met from the root through child lists. -/
def Reachable (t : Tree) (b : BranchPtr) : Prop :=
  Relation.ReflTransGen (fun p c => c ∈ t.children p) t.branch b

/-- The index holds the reachable branches, each under its own id. -/
structure NothingLost (t : Tree) : Prop where
  indexed_iff : ∀ b, t.Indexed b ↔ t.Reachable b
  stored : ∀ k b, t.branchIndex k = some b → (t.mem b).id = k

/-- Every indexed branch lies in the tree of the root. -/
def Rooted (t : Tree) : Prop :=
  ∀ b, t.Indexed b → Anc t.parent b t.branch

variable {t : Tree} {b p : BranchPtr}

theorem Shape.reachable_iff (shape : t.Shape) : t.Reachable b ↔ Anc t.parent b t.branch := by
  have flip : (fun p c => c ∈ t.children p) = Function.swap (Up t.parent) := by
    funext p c
    exact propext shape.mirrors.mem_iff
  rw [Reachable, flip, Relation.reflTransGen_swap]
  rfl

theorem WellFormed.indexed_of_anc (wf : t.WellFormed) (anc : Anc t.parent b t.branch) :
    t.Indexed b := by
  rcases anc_iff_eq_or_strictAnc.mp anc with same | strict
  · rw [← same]
    exact wf.root_indexed
  · rcases strictAnc_iff_parent.mp strict with ⟨p, step, _⟩
    exact wf.indexed_of_parent step

theorem WellFormed.nothingLost_iff (wf : t.WellFormed) : t.NothingLost ↔ t.Rooted := by
  constructor
  · intro nothingLost b indexed
    exact wf.reachable_iff.mp ((nothingLost.indexed_iff b).mp indexed)
  · intro rooted
    refine ⟨fun b => ?_, fun k b stored => (wf.index_spec stored).1⟩
    rw [wf.reachable_iff]
    exact ⟨rooted b, wf.indexed_of_anc⟩

/-- Only the root has no parent. -/
def OneRoot (t : Tree) : Prop :=
  ∀ b, t.Indexed b → t.parent b = none → b = t.branch

theorem Rooted.oneRoot (rooted : t.Rooted) : t.OneRoot := by
  intro b indexed top
  exact ((anc_iff_of_root top).mp (rooted b indexed)).symm

theorem Rooted.grow {pb : BranchPtr} {new : Branch} {i : ℕ} (rooted : t.Rooted)
    (wf : t.WellFormed) (fresh : Fresh new) (indexed : t.Indexed pb) :
    (t.grow pb new i).Rooted := by
  have keep : ∀ {x a}, Anc t.parent x a → Anc (t.grow pb new i).parent x a := by
    intro x a
    apply Anc.mono
    intro y q step
    have old : y ≠ t.next := Nat.ne_of_lt (wf.parent_lt step).1
    rw [wf.grow_parent fresh, if_neg old]
    exact step
  rintro x ⟨k, stored⟩
  rw [grow_index] at stored
  split at stored
  · rw [← Option.some.inj stored]
    have step : (t.grow pb new i).parent t.next = some pb := by
      rw [wf.grow_parent fresh, if_pos rfl]
    exact (anc_of_parent step).trans (keep (rooted pb indexed))
  · exact keep (rooted x ⟨k, stored⟩)

/-- A branch that was under the root is so after a move: through `b`, or past it. -/
theorem WellFormed.rehome_rooted {opb npb : BranchPtr} {i : ℕ} (wf : t.WellFormed)
    (step : t.parent b = some opb) (indexed : t.Indexed npb) (apart : ¬Anc t.parent npb b)
    (above : Anc t.parent npb t.branch) {x : BranchPtr} (anc : Anc t.parent x t.branch) :
    Anc (t.rehome b opb npb i).parent x t.branch := by
  have can := wf.canLink_unlink step (wf.indexed_lt indexed) apart
  rw [Tree.rehome, Shape.link_anc can]
  by_cases below : Anc t.parent x b
  · right
    constructor
    · rw [wf.unlink_anc]
      exact ⟨below, fun _ => anc_refl _ _⟩
    · rw [wf.unlink_anc]
      exact ⟨above, fun low => absurd low apart⟩
  · left
    rw [wf.unlink_anc]
    exact ⟨anc, fun low => absurd low below⟩

/-- A branch under the root stays there when a leaf is cut. -/
theorem WellFormed.forget_rooted (wf : t.WellFormed) (leaf : t.children b = []) {x : BranchPtr}
    (ne : x ≠ b) (anc : Anc t.parent x t.branch) : Anc (t.forget b p).parent x t.branch := by
  have same : (t.forget b p).parent = (t.unlink b p).parent := by
    funext y
    rw [forget_parent, Shape.unlink_parent]
  rw [same, wf.unlink_anc]
  refine ⟨anc, fun low => ?_⟩
  rcases Relation.ReflTransGen.cases_tail low with rfl | ⟨y, _, step⟩
  · exact absurd rfl ne
  · have child := wf.mirrors.mem_iff.mpr step
    simp [leaf] at child

theorem Rooted.apply {e : Edit} (rooted : t.Rooted) (wf : t.WellFormed) (allowed : e.Allowed t)
    (tame : e.Tame True False t) : (e.apply t).Rooted := by
  cases e with
  | grow pb new i =>
      rcases allowed with ⟨fresh, _, indexed, _, _, _⟩
      have grown := rooted.grow (i := i) wf fresh indexed
      have saved := Edit.grow_apply_mem t pb new i
      have parents : ((Edit.grow pb new i).apply t).parent = (t.grow pb new i).parent := by
        funext x
        simp only [parent, saved]
      intro x indexedX
      rw [parents, Edit.apply_branch]
      apply grown
      rcases indexedX with ⟨k, stored⟩
      rw [Edit.grow_apply_index] at stored
      exact ⟨k, stored⟩
  | rehome b opb npb i =>
      rcases allowed with ⟨step, indexed, apart, _, _⟩
      intro x indexedX
      exact wf.rehome_rooted step indexed apart (rooted npb indexed) (rooted x indexedX)
  | forget b p =>
      rintro x ⟨k, stored⟩
      have found : (t.forget b p).branchIndex k = some x := stored
      rw [forget_index] at found
      split at found
      · simp at found
      · rename_i other
        have ne : x ≠ b := by
          rintro rfl
          exact other (wf.index_spec found).1.symm
        exact wf.forget_rooted (tame trivial) ne (rooted x ⟨k, found⟩)
  | relabel b text noteId =>
      have saved := Edit.relabel_apply_mem t b text noteId
      have parents : ((Edit.relabel b text noteId).apply t).parent = t.parent := by
        funext x
        simp only [parent, saved, modify_mem]
        split <;> rfl
      intro x indexedX
      rw [parents, Edit.apply_branch]
      apply rooted
      rcases indexedX with ⟨k, stored⟩
      rw [show ((Edit.relabel b text noteId).apply t).branchIndex = t.branchIndex from
        (ioSaveBranchData_fields _ _).2.2.2.1] at stored
      exact ⟨k, stored⟩

end Tree

theorem call_rooted {m m' : Map} {call : Call} (wf : m.tree.WellFormed) (rooted : m.tree.Rooted)
    (few : call.DeletesFew m.tree) (run : m.call call = .ok m') : m'.tree.Rooted := by
  have edits := call_edits True False wf (fun _ => few) False.elim run
  apply edits.invariant_wellFormed _ wf rooted
  intro t e wf rooted allowed tame
  exact rooted.apply wf allowed tame

/-! ## What a delete does -/

/-- Exactly `b` became unreachable, and its children hang below the root with their subtrees. -/
structure Tree.DeletedExactly (t t' : Tree) (b : BranchPtr) : Prop where
  reachable : ∀ x, t'.Reachable x ↔ t.Reachable x ∧ x ≠ b
  parents : ∀ x, x ≠ b →
    t'.parent x = if t.parent x = some b then some t.branch else t.parent x

section Delete

variable {m m' : Map} {view : Option ViewPtr} {branchId : UInt64} {b p c : BranchPtr}

theorem delete_few (wf : m.tree.WellFormed) (rooted : m.tree.Rooted)
    (found : m.tree.branchIndex branchId = some b) (parentB : m.tree.parent b = some p)
    (few : (m.tree.children b).length ≤ 1) (run : delete m view branchId = .ok m') :
    m.tree.DeletedExactly m'.tree b := by
  rcases delete_of_found True False wf found parentB run with ⟨m₁, moved, first, parentB', after⟩
  rcases deleteChildren_few _ wf parentB few moved with ⟨empty, parents⟩
  have wf' : m'.tree.WellFormed := by
    rw [after]
    exact (first.wellFormed wf).apply parentB'
  have root : m'.tree.branch = m.tree.branch := by
    rw [after, Edit.apply_branch, first.branch_eq]
  have cut : m'.tree.parent b = none := by
    rw [after]
    exact (forget_parent m₁.tree b p b).trans (if_pos rfl)
  have rehomed : ∀ x, x ≠ b →
      m'.tree.parent x = if m.tree.parent x = some b then some m.tree.branch else m.tree.parent x := by
    intro x ne
    rw [after, ← parents]
    exact (forget_parent m₁.tree b p x).trans (if_neg ne)
  have notRoot : m.tree.branch ≠ b := (wf.ne_root parentB).symm
  refine ⟨fun x => ?_, rehomed⟩
  rw [wf'.reachable_iff, wf.reachable_iff, root]
  apply anc_bypass cut
  · intro x ne child
    rw [rehomed x ne, if_pos child]
  · intro x ne child
    rw [rehomed x ne, if_neg child]
  · exact notRoot
  · exact rooted b ⟨_, found⟩

/-- From the second round on, the loop of `delete` never comes back to the first entry. -/
theorem deleteChildren_keeps_head (fuel i : ℕ) (wf : m.tree.WellFormed)
    (parentB : m.tree.parent b = some p) (head : (m.tree.children b).head? = some c)
    (run : deleteChildren b fuel (i + 1) m = .ok m') :
    (m'.tree.children b).head? = some c := by
  induction fuel generalizing m i with
  | zero =>
      simp only [deleteChildren, Except.ok.injEq] at run
      rw [← run]
      exact head
  | succ fuel ih =>
      unfold deleteChildren at run
      split at run
      · split at run
        · simp at run
        · rename_i child found
          have step : m.tree.parent child = some b :=
            wf.mirrors.mem_iff.mp (List.mem_of_getElem? found)
          simp only [show (m.tree.mem child).parent = some b from step] at run
          rcases bind_eq_ok.mp run with ⟨⟨m₁, accepted⟩, moved, run⟩
          rcases deleteChildren_step True True wf parentB step moved with ⟨first, parents, rest⟩
          have parentB' : m₁.tree.parent b = some p := by
            rw [parents, if_neg (wf.acyclic.parent_ne step)]
            exact parentB
          apply ih (i + 1) (first.wellFormed wf) parentB' _ run
          rw [rest]
          rcases listed : m.tree.children b with _ | ⟨d, others⟩
          · simp [listed] at head
          · have nodup := wf.mirrors.nodup b
            rw [listed, List.nodup_cons] at nodup
            rw [show (m.tree.mem b).childList = d :: others from listed,
              List.getElem?_cons_succ] at found
            have other : d ≠ child := by
              rintro rfl
              exact nodup.1 (List.mem_of_getElem? found)
            rw [listed] at head
            rw [List.erase_cons_tail (by simpa using other)]
            exact head
      · simp only [Except.ok.injEq] at run
        rw [← run]
        exact head

theorem deleteChildren_keeps_second (fuel : ℕ) {d : BranchPtr} {rest : List BranchPtr}
    (wf : m.tree.WellFormed) (parentB : m.tree.parent b = some p)
    (listed : m.tree.children b = d :: c :: rest)
    (run : deleteChildren b (fuel + 1) 0 m = .ok m') :
    (m'.tree.children b).head? = some c := by
  have step : m.tree.parent d = some b := wf.mirrors.mem_iff.mp (by simp [listed])
  have count : 0 < (m.tree.mem b).childN.toNat := by
    rw [wf.childN_eq b, listed]
    exact Nat.succ_pos _
  have entry : (m.tree.mem b).childList[0]? = some d := by
    rw [show (m.tree.mem b).childList = d :: c :: rest from listed, List.getElem?_cons_zero]
  simp only [deleteChildren, count, if_true, entry,
    show (m.tree.mem d).parent = some b from step] at run
  rcases bind_eq_ok.mp run with ⟨⟨m₁, accepted⟩, moved, run⟩
  rcases deleteChildren_step True True wf parentB step moved with ⟨first, parents, left⟩
  have parentB₁ : m₁.tree.parent b = some p := by
    rw [parents, if_neg (wf.acyclic.parent_ne step)]
    exact parentB
  apply deleteChildren_keeps_head _ 0 (first.wellFormed wf) parentB₁ _ run
  rw [left, listed]
  simp

/-- The second child of a deleted branch is left below it. -/
theorem delete_many (wf : m.tree.WellFormed)
    (found : m.tree.branchIndex branchId = some b) (parentB : m.tree.parent b = some p)
    (many : 1 < (m.tree.children b).length) (run : delete m view branchId = .ok m') :
    ¬m.tree.DeletedExactly m'.tree b := by
  intro exactly
  rcases delete_of_found True True wf found parentB run with ⟨m₁, moved, first, parentB', after⟩
  rcases listed : m.tree.children b with _ | ⟨d, _ | ⟨c, rest⟩⟩
  · simp [listed] at many
  · simp [listed] at many
  · have stays := deleteChildren_keeps_second 65535 wf parentB listed moved
    have wf₁ := first.wellFormed wf
    have child : m.tree.parent c = some b := wf.mirrors.mem_iff.mp (by simp [listed])
    have child₁ : m₁.tree.parent c = some b :=
      wf₁.mirrors.mem_iff.mp (List.mem_of_mem_head? stays)
    have ne : c ≠ b := (wf.acyclic.parent_ne child).symm
    have lost : m'.tree.parent c = some b := by
      rw [after, ← child₁]
      exact (forget_parent m₁.tree b p c).trans (if_neg ne)
    have rehomed := exactly.parents c ne
    rw [lost, if_pos child, Option.some.injEq] at rehomed
    rw [rehomed, wf.root_parent] at parentB
    simp at parentB

theorem delete_exactly_iff (wf : m.tree.WellFormed) (rooted : m.tree.Rooted)
    (found : m.tree.branchIndex branchId = some b) (parentB : m.tree.parent b = some p)
    (run : delete m view branchId = .ok m') :
    m.tree.DeletedExactly m'.tree b ↔ (m.tree.children b).length ≤ 1 := by
  constructor
  · intro exactly
    by_contra many
    exact delete_many wf found parentB (Nat.lt_of_not_le many) run exactly
  · intro few
    exact delete_few wf rooted found parentB few run

end Delete

/-! ## Runs -/

theorem Map.HoldsOnlyRoot.rooted {m : Map} (start : m.HoldsOnlyRoot) : m.tree.Rooted := by
  rintro b ⟨k, stored⟩
  rw [start.index] at stored
  split at stored
  · rw [← Option.some.inj stored, start.root]
  · simp at stored

theorem run_rooted {m m' : Map} {calls : List Call} (wf : m.tree.WellFormed) (rooted : m.tree.Rooted)
    (few : m.Along (fun m call => call.DeletesFew m.tree) calls) (run : m.run calls = .ok m') :
    m'.tree.Rooted := by
  refine run_invariant (R := fun m : Map => m.tree.Rooted) ?_ wf rooted few run
  intro m call m' wf rooted few called
  exact call_rooted wf rooted few called

/--
As long as only branches with at most one child are deleted, the index holds the reachable
branches. In every state so reached, exactly these deletes do what they should.
-/
theorem run_nothingLost {m : Map} (start : m.HoldsOnlyRoot) (calls : List Call)
    (edits : ∀ call ∈ calls, call.EditsTree) (room : m.NeverFull calls)
    (few : m.Along (fun m call => call.DeletesFew m.tree) calls) :
    ∃ m', m.run calls = .ok m' ∧ m'.tree.NothingLost ∧
      ∀ viewId branchId b p m'', m'.tree.branchIndex branchId = some b →
        m'.tree.parent b = some p → m'.call (.delete viewId branchId) = .ok m'' →
        (m'.tree.DeletedExactly m''.tree b ↔ (m'.tree.children b).length ≤ 1) := by
  rcases run_ends start.wellFormed start.views edits room with ⟨m', run⟩
  have wf := run_wellFormed start.wellFormed run
  have rooted := run_rooted start.wellFormed start.rooted few run
  refine ⟨m', run, wf.nothingLost_iff.mpr rooted, ?_⟩
  intro viewId branchId b p m'' found parentB deleted
  exact delete_exactly_iff wf rooted found parentB deleted

/-- A branch with one child is deleted. -/
theorem run_nothingLost_example :
    ∃ m', (mapCreateEmpty 1).run
        [.insert 0 1 2 0 [] 0 0, .insert 0 2 3 0 [] 0 0, .delete 0 2] = .ok m' ∧
      m'.tree.NothingLost ∧
      ∀ viewId branchId b p m'', m'.tree.branchIndex branchId = some b →
        m'.tree.parent b = some p → m'.call (.delete viewId branchId) = .ok m'' →
        (m'.tree.DeletedExactly m''.tree b ↔ (m'.tree.children b).length ≤ 1) := by
  apply run_nothingLost (mapCreateEmpty_holdsOnlyRoot 1)
  · simp [Call.EditsTree]
  · apply neverFull_of_ends
    decide +kernel
  · decide +kernel

/-- Two children are inserted below a branch, which is then deleted: the second child is lost. -/
theorem delete_loses_child :
    ¬∀ m', (mapCreateEmpty 1).run
        [.insert 0 1 2 0 [] 0 0, .insert 0 2 3 0 [] 0 0, .insert 0 2 4 1 [] 0 0, .delete 0 2] =
          .ok m' → m'.tree.NothingLost := by
  intro claim
  have observed : ((mapCreateEmpty 1).run
      [.insert 0 1 2 0 [] 0 0, .insert 0 2 3 0 [] 0 0, .insert 0 2 4 1 [] 0 0,
        .delete 0 2]).toOption.map (fun m => (m.tree.branchIndex 4, m.tree.branch,
          m.tree.parent 3, m.tree.parent 1)) = some (some 3, 0, some 1, none) := by
    decide +kernel
  cases run : (mapCreateEmpty 1).run
      [.insert 0 1 2 0 [] 0 0, .insert 0 2 3 0 [] 0 0, .insert 0 2 4 1 [] 0 0, .delete 0 2] with
  | error e => simp [run, Except.toOption] at observed
  | ok m' =>
      simp only [run, Except.toOption, Option.map_some, Option.some.injEq, Prod.mk.injEq] at observed
      rcases observed with ⟨stored, root, child, top⟩
      have wf := run_wellFormed (mapCreateEmpty_holdsOnlyRoot 1).wellFormed run
      have reachable := ((claim m' run).indexed_iff 3).mp ⟨4, stored⟩
      rw [wf.reachable_iff, root, anc_iff_of_parent child, anc_iff_of_root top] at reachable
      simp at reachable

end Treedb
