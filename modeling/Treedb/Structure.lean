import Treedb.Call

/-!
# The shape of reachable trees

From a map that holds only its root, every run of inserts, moves and deletes, with or without
paths, leads to a map whose child lists and parent pointers describe one forest. Deleted branches
take part in it: a delete may leave children behind, and these keep pointing to the deleted
branch.

The only way such a run can fail is the copy loop of `branch_add` on a parent that already has
65535 children.
-/

namespace Treedb

open Forest Outcome Treedb.Tree

/-- What is promised of the pointers of all branches ever allocated. -/
structure Tree.Structured (t : Tree) : Prop where
  /-- Parent pointers and child lists mirror each other. -/
  parent_iff : ∀ b < t.next, ∀ p < t.next,
    (t.mem b).parent = some p ↔ b ∈ (t.mem p).childList
  /-- No branch occurs twice in all child lists together. -/
  once : ((List.range t.next).flatMap fun p => (t.mem p).childList).Nodup
  childN : ∀ p < t.next, (t.mem p).childN.toNat = (t.mem p).childList.length
  /-- Following parent pointers meets a null pointer after at most `next` steps. -/
  climb : ∀ b < t.next, (fun o => o.bind fun b => (t.mem b).parent)^[t.next] (some b) = none
  /-- No branch is its own ancestor. -/
  noLoop : ∀ b, ¬StrictAnc t.parent b b

theorem Tree.Shape.structured {t : Tree} (shape : t.Shape) : t.Structured where
  parent_iff := fun _ _ _ _ => shape.mirrors.mem_iff.symm
  once := by
    rw [List.nodup_flatMap]
    refine ⟨fun p _ => shape.mirrors.nodup p, List.nodup_range.pairwise_of_forall_ne ?_⟩
    intro p _ q _ ne
    simp only [Function.onFun, List.Disjoint]
    intro b inP inQ
    have left := shape.mirrors.mem_iff.mp inP
    have right := shape.mirrors.mem_iff.mp inQ
    exact ne (Option.some.inj (left.symm.trans right))
  childN := fun p _ => shape.childN_eq p
  climb := by
    intro b allocated
    have ends := climb_ends_within shape.acyclic shape.supported (Finset.mem_range.mpr allocated)
    rw [Finset.card_range] at ends
    exact ends
  noLoop := shape.acyclic.strict_irrefl

/-- There are no views. -/
structure Overlay.NoViews (o : Overlay) : Prop where
  index : ∀ id, o.viewIndex id = none
  lists : ∀ b, o.vbranchList b = []

/-- The map holds one branch, its root, and has no views. -/
structure Map.HoldsOnlyRoot (m : Map) : Prop where
  next : m.tree.next = 1
  root : m.tree.branch = 0
  bare : ∀ b, (m.tree.mem b).parent = none ∧ (m.tree.mem b).childList = [] ∧
    (m.tree.mem b).childN = 0
  index : ∀ k, m.tree.branchIndex k = if k = (m.tree.mem 0).id then some 0 else none
  views : m.overlay.NoViews

theorem Map.HoldsOnlyRoot.wellFormed {m : Map} (start : m.HoldsOnlyRoot) :
    m.tree.WellFormed := by
  have noParent : ∀ {x p}, m.tree.parent x ≠ some p := by
    intro x p step
    have bare := (start.bare x).1
    simp only [parent] at step
    simp [bare] at step
  refine ⟨⟨⟨?_, ?_⟩, ?_, ?_, ?_⟩, ?_, ?_, ?_, ?_, ?_⟩
  · intro c p
    simp [children, (start.bare p).2.1, noParent]
  · intro p
    simp [children, (start.bare p).2.1]
  · intro p
    simp [children, (start.bare p).2.1, (start.bare p).2.2]
  · exact ⟨fun x => ⟨x, fun p step => absurd step noParent⟩⟩
  · intro x p step
    exact absurd step noParent
  · simp [start.root, start.next]
  · exact (start.bare _).1
  · simp [start.root, start.index]
  · intro k b stored
    rw [start.index] at stored
    split at stored
    · rename_i same
      rw [← Option.some.inj stored, start.next]
      exact ⟨same.symm, Nat.zero_lt_one⟩
    · simp at stored
  · intro b p step
    exact absurd step noParent

/-- The call is one of the five operations that edit the tree. -/
def Call.EditsTree : Call → Prop
  | .insert .. | .insertInPath .. | .move .. | .moveToPath .. | .delete .. => True
  | _ => False

section NoViews

variable {t : Tree} {m m₁ m' : Map} {view : Option ViewPtr}
  {parentId branchId newParentId oldParentId : UInt64} {text : CString} {mark doc : UInt64}
  {names : List CString} {parent b p : BranchPtr} {accepted : Bool}

/-- A fault can only come from a full child list, and no view appears. -/
def OnlyOverflow (x : Except Fault (Map × Option BranchPtr)) : Prop :=
  Ends (fun e => e = .childOverflow) (fun s => s.1.overlay.NoViews) x

theorem insert_onlyOverflow (wf : m.tree.WellFormed) (none' : m.overlay.NoViews) (pos : UInt32) :
    OnlyOverflow (insert m none parentId branchId pos text mark doc) := by
  unfold insert
  split
  · exact none'
  · exact none'
  · rename_i pb _ known
    have indexed : m.tree.Indexed pb := ⟨parentId, known⟩
    simp only [insertExpand, ok_bind, wf.insertBranch_eq indexed]
    split
    · exact rfl
    · simp only [ok_bind, none'.lists, List.foldlM_nil, pure_eq_ok]
      exact none'

theorem insertPathLoop_onlyOverflow (wf : m.tree.WellFormed) (none' : m.overlay.NoViews)
    (indexed : m.tree.Indexed parent) : OnlyOverflow (insertPathLoop m parent names) := by
  induction names generalizing m parent with
  | nil => exact none'
  | cons name names ih =>
      unfold insertPathLoop
      split
      · rename_i child found
        rw [findChild, wf.take_children] at found
        exact ih wf none'
          (wf.indexed_of_parent (wf.mirrors.mem_iff.mp (List.mem_of_find?_eq_some found)))
      · apply Ends.bind ((insert_onlyOverflow wf none' 999999).and fun a same =>
          insert_edits False False wf (fun asked => asked.elim) same)
        rintro ⟨m', r⟩ ⟨none'', edits, indexed'⟩
        cases r with
        | none => exact none''
        | some child => exact ih (edits.wellFormed wf) none'' (indexed' child rfl)

theorem insertPath_onlyOverflow (wf : m.tree.WellFormed) (none' : m.overlay.NoViews) :
    OnlyOverflow (insertPath m parentId names) := by
  unfold insertPath
  split
  · exact none'
  · rename_i parent start
    apply insertPathLoop_onlyOverflow wf none'
    split at start
    · exact ⟨parentId, start⟩
    · rw [← Option.some.inj start]
      exact wf.root_indexed

theorem insertInPath_onlyOverflow (wf : m.tree.WellFormed) (none' : m.overlay.NoViews) :
    OnlyOverflow (insertInPath m parentId names branchId text mark doc) := by
  apply Ends.bind ((insertPath_onlyOverflow wf none').and fun a same =>
    insertPath_edits False False wf same)
  rintro ⟨m', r⟩ ⟨none'', edits, _⟩
  cases r with
  | none => exact none''
  | some child => exact insert_onlyOverflow (edits.wellFormed wf) none'' 999999

theorem move_onlyOverflow (wf : m.tree.WellFormed) (none' : m.overlay.NoViews) (pos : UInt16) :
    Ends (fun e => e = .childOverflow) (fun s : Map × Bool => s.1.overlay.NoViews)
      (move m none newParentId oldParentId branchId pos) := by
  unfold move
  split
  · exact none'
  · exact none'
  · rename_i b opb npb accept
    rcases (moveCheck_accept wf).mp accept with ⟨_, step, target, _, apart⟩
    simp only [none'.lists, List.foldlM_nil, pure_eq_ok, ok_bind,
      wf.moveBranch_eq step ⟨_, target⟩ apart]
    split
    · exact rfl
    · exact none'

theorem moveToPath_onlyOverflow (wf : m.tree.WellFormed) (none' : m.overlay.NoViews) :
    Ends (fun e => e = .childOverflow) (fun m => m.overlay.NoViews)
      (moveToPath m parentId names branchId) := by
  apply Ends.bind ((insertPath_onlyOverflow wf none').and fun a same =>
    insertPath_edits False False wf same)
  rintro ⟨m', r⟩ ⟨none'', edits, _⟩
  cases r with
  | none => exact none''
  | some child =>
      simp only
      split
      · exact none''
      · split
        · exact none''
        · apply Ends.bind (move_onlyOverflow (edits.wellFormed wf) none'' 9999)
          intro s kept
          exact kept

theorem deleteChildren_onlyOverflow (fuel i : ℕ) (wf : m.tree.WellFormed)
    (none' : m.overlay.NoViews) (parentB : m.tree.parent b = some p) :
    Ends (fun e => e = .childOverflow) (fun m => m.overlay.NoViews)
      (deleteChildren b fuel i m) := by
  induction fuel generalizing m i with
  | zero => exact none'
  | succ fuel ih =>
      unfold deleteChildren
      split
      · rename_i inside
        rw [wf.childN_eq b] at inside
        have found : (m.tree.mem b).childList[i]? = some ((m.tree.children b)[i]) :=
          List.getElem?_eq_getElem inside
        have step : m.tree.parent (m.tree.children b)[i] = some b :=
          wf.mirrors.mem_iff.mp (List.getElem_mem inside)
        simp only [found, show (m.tree.mem (m.tree.children b)[i]).parent = some b from step]
        apply Ends.bind ((move_onlyOverflow wf none' 9999).and fun a same =>
          deleteChildren_step False False wf parentB step same)
        rintro ⟨m', accepted⟩ ⟨none'', edits, parents, _⟩
        have parentB' : m'.tree.parent b = some p := by
          rw [parents, if_neg (wf.acyclic.parent_ne step)]
          exact parentB
        exact ih (i + 1) (edits.wellFormed wf) none'' parentB'
      · exact none'

theorem delete_onlyOverflow (wf : m.tree.WellFormed) (none' : m.overlay.NoViews) :
    Ends (fun e => e = .childOverflow) (fun m => m.overlay.NoViews) (delete m none branchId) := by
  unfold delete
  split
  · exact none'
  · rename_i b _
    split
    · exact none'
    · rename_i p parentB
      apply Ends.bind ((deleteChildren_onlyOverflow _ _ wf none' parentB).and fun a same =>
        deleteChildren_edits False False _ _ wf parentB same)
      rintro m' ⟨none'', _, parentB'⟩
      simp only [none''.lists, List.foldlM_nil, pure_eq_ok, ok_bind,
        show (m'.tree.mem b).parent = some p from parentB']
      split
      · exact ⟨none''.index, none''.lists⟩
      · exact none''

theorem call_onlyOverflow {call : Call} (wf : m.tree.WellFormed) (none' : m.overlay.NoViews)
    (edits : call.EditsTree) :
    Ends (fun e => e = .childOverflow) (fun m => m.overlay.NoViews) (m.call call) := by
  cases call with
  | insert viewId parentId branchId pos text mark doc =>
      simp only [Map.call, viewIndexGet, none'.index]
      exact (insert_onlyOverflow wf none' pos).map fun _ kept => kept
  | insertInPath parentId names branchId text mark doc =>
      exact (insertInPath_onlyOverflow wf none').map fun _ kept => kept
  | move viewId newParentId oldParentId branchId pos =>
      simp only [Map.call, viewIndexGet, none'.index]
      exact (move_onlyOverflow wf none' pos).map fun _ kept => kept
  | moveToPath parentId names branchId => exact moveToPath_onlyOverflow wf none'
  | delete viewId branchId =>
      simp only [Map.call, viewIndexGet, none'.index]
      exact delete_onlyOverflow wf none'
  | _ => exact edits.elim

/-! With room in every child list, an operation returns. -/

theorem insert_returns (wf : m.tree.WellFormed) (none' : m.overlay.NoViews)
    (room : ∀ pb, m.tree.branchIndex parentId = some pb → (m.tree.children pb).length < 65535)
    (pos : UInt32) :
    ∃ s, insert m none parentId branchId pos text mark doc = .ok s ∧ s.1.overlay.NoViews := by
  unfold insert
  split
  · exact ⟨_, rfl, none'⟩
  · exact ⟨_, rfl, none'⟩
  · rename_i pb _ known
    have indexed : m.tree.Indexed pb := ⟨parentId, known⟩
    simp only [insertExpand, ok_bind, wf.insertBranch_eq indexed,
      if_neg (Nat.ne_of_lt (room pb known)), none'.lists, List.foldlM_nil, pure_eq_ok]
    exact ⟨_, rfl, none'⟩

theorem move_returns (wf : m.tree.WellFormed) (none' : m.overlay.NoViews)
    (room : ∀ b, m.tree.branchIndex newParentId = some b → (m.tree.children b).length < 65535)
    (pos : UInt16) :
    ∃ s, move m none newParentId oldParentId branchId pos = .ok s ∧ s.1.overlay.NoViews := by
  unfold move
  split
  · exact ⟨_, rfl, none'⟩
  · exact ⟨_, rfl, none'⟩
  · rename_i b opb npb accept
    rcases (moveCheck_accept wf).mp accept with ⟨_, step, target, _, apart⟩
    have shorter : ((m.tree.unlink b opb).children npb).length ≤ (m.tree.children npb).length := by
      rw [Shape.unlink_children]
      split
      · exact List.length_erase_le
      · exact Nat.le_refl _
    have notFull := Nat.ne_of_lt (Nat.lt_of_le_of_lt shorter (room npb target))
    simp only [none'.lists, List.foldlM_nil, pure_eq_ok, ok_bind,
      wf.moveBranch_eq step ⟨_, target⟩ apart, if_neg notFull]
    exact ⟨_, rfl, none'⟩

/-- A child that `delete` moves goes to place 9999 below the root, or to the end. -/
theorem deleteChildren_step_root {child : BranchPtr} (wf : m.tree.WellFormed)
    (parentB : m.tree.parent b = some p) (step : m.tree.parent child = some b)
    (run : move m none (m.tree.mem m.tree.branch).id (m.tree.mem b).id (m.tree.mem child).id 9999 =
      .ok (m', accepted)) :
    m'.tree.children m.tree.branch = (m.tree.children m.tree.branch).insertIdx
      (min 9999 (m.tree.children m.tree.branch).length) child := by
  have notRoot : m.tree.branch ≠ b := (wf.ne_root parentB).symm
  rcases move_of_accept wf (moveCheck_child wf step) run with ⟨_, after, _⟩
  have same : (m.tree.unlink child b).children m.tree.branch = m.tree.children m.tree.branch := by
    rw [Shape.unlink_children, if_neg notRoot]
  rw [after, insertPos_nat, same]
  change (m.tree.rehome child b m.tree.branch _).children m.tree.branch = _
  rw [rehome_children, if_pos rfl, same]
  rfl

/-- The loop of `delete` ends, as long as each of its moves does and the root has room for them. -/
theorem deleteChildren_total {R : Map → Prop}
    (each : ∀ m₁ child, m₁.tree.WellFormed → m₁.tree.parent child = some b → R m₁ →
      (m₁.tree.children m₁.tree.branch).length < 65535 →
      ∃ m₂ accepted, move m₁ none (m₁.tree.mem m₁.tree.branch).id (m₁.tree.mem b).id
        (m₁.tree.mem child).id 9999 = .ok (m₂, accepted) ∧ R m₂)
    (wf : m.tree.WellFormed) (parentB : m.tree.parent b = some p) (start : R m)
    (room : (m.tree.children m.tree.branch).length + (m.tree.children b).length ≤ 65535)
    (fuel i : ℕ) : ∃ m', deleteChildren b fuel i m = .ok m' ∧ R m' := by
  induction fuel generalizing m i with
  | zero => exact ⟨m, rfl, start⟩
  | succ fuel ih =>
      have count := wf.childN_eq b
      unfold deleteChildren
      by_cases more : i < (m.tree.children b).length
      · have found : (m.tree.mem b).childList[i]? = some ((m.tree.children b)[i]) :=
          List.getElem?_eq_getElem more
        have step : m.tree.parent (m.tree.children b)[i] = some b :=
          wf.mirrors.mem_iff.mp (List.getElem_mem more)
        rcases each m _ wf step start (by omega) with ⟨m₁, accepted, moved, next⟩
        simp only [count, more, if_true, found,
          show (m.tree.mem (m.tree.children b)[i]).parent = some b from step, moved, ok_bind]
        rcases deleteChildren_step True True wf parentB step moved with ⟨first, parents, fewer⟩
        have parentB₁ : m₁.tree.parent b = some p := by
          rw [parents, if_neg (wf.acyclic.parent_ne step)]
          exact parentB
        have longer := congrArg List.length (deleteChildren_step_root wf parentB step moved)
        rw [List.length_insertIdx_of_le_length (min_le_right _ _)] at longer
        have shorter := congrArg List.length fewer
        rw [List.length_erase_of_mem (List.getElem_mem more)] at shorter
        exact ih (first.wellFormed wf) parentB₁ next (by rw [first.branch_eq]; omega) (i + 1)
      · simp only [count, more, if_false]
        exact ⟨m, rfl, start⟩

/-- Without views the loop of `delete` ends if the root has room for the children. -/
theorem deleteChildren_returns (wf : m.tree.WellFormed) (none' : m.overlay.NoViews)
    (parentB : m.tree.parent b = some p)
    (room : (m.tree.children m.tree.branch).length + (m.tree.children b).length ≤ 65535) :
    ∃ m', deleteChildren b (2 ^ 16) 0 m = .ok m' := by
  have total := deleteChildren_total (R := fun m => m.overlay.NoViews) ?_ wf parentB none' room
    (2 ^ 16) 0
  · rcases total with ⟨m', run, _⟩
    exact ⟨m', run⟩
  · intro m₁ child wf₁ _ none₁ space
    have target : ∀ x, m₁.tree.branchIndex (m₁.tree.mem m₁.tree.branch).id = some x →
        (m₁.tree.children x).length < 65535 := by
      intro x found
      rw [wf₁.root_index, Option.some.injEq] at found
      exact found ▸ space
    rcases move_returns wf₁ none₁ target 9999 with ⟨⟨m₂, accepted⟩, moved, none₂⟩
    exact ⟨m₂, accepted, moved, none₂⟩

theorem deleteInView_total (step : t.parent b = some p) (view : Option ViewPtr) (o : Overlay)
    (vbr : VbranchPtr) : ∃ o', deleteInView t view b o vbr = .ok o' := by
  unfold deleteInView
  split
  · split
    · exact ⟨_, rfl⟩
    · exact ⟨_, rfl⟩
  · split
    · simp only [show (t.mem b).parent = some p from step]
      split
      · exact ⟨_, rfl⟩
      · exact ⟨_, rfl⟩
    · exact ⟨_, rfl⟩

theorem deleteInView_all_total (step : t.parent b = some p) (view : Option ViewPtr)
    (list : List VbranchPtr) (o : Overlay) :
    ∃ o', list.foldlM (deleteInView t view b) o = .ok o' := by
  induction list generalizing o with
  | nil => exact ⟨o, rfl⟩
  | cons vbr list ih =>
      rcases deleteInView_total step view o vbr with ⟨o₁, first⟩
      rcases ih o₁ with ⟨o', rest⟩
      refine ⟨o', ?_⟩
      rw [List.foldlM_cons, first]
      exact rest

/-- A delete ends once its children are moved. -/
theorem delete_of_emptied (wf : m.tree.WellFormed) (found : m.tree.branchIndex branchId = some b)
    (parentB : m.tree.parent b = some p) (emptied : deleteChildren b (2 ^ 16) 0 m = .ok m₁)
    (view : Option ViewPtr) : ∃ m', delete m view branchId = .ok m' := by
  have parentB₁ := (deleteChildren_edits False False _ _ wf parentB emptied).2
  rcases deleteInView_all_total parentB₁ view (m₁.overlay.vbranchList m₁.tree.branch) m₁.overlay with
    ⟨o, told⟩
  simp only [delete, branchIndexGet, found, show (m.tree.mem b).parent = some p from parentB, emptied,
    ok_bind, told, show (m₁.tree.mem b).parent = some p from parentB₁]
  exact ⟨_, rfl⟩

theorem delete_returns (wf : m.tree.WellFormed) (none' : m.overlay.NoViews)
    (room : ∀ b, (m.tree.children b).length < 65535)
    (few : ∀ b, m.tree.branchIndex branchId = some b →
      m.tree.parent b ≠ none → (m.tree.children b).length ≤ 1) :
    ∃ m', delete m none branchId = .ok m' := by
  rcases found : m.tree.branchIndex branchId with _ | b
  · simp only [delete, branchIndexGet, found]
    exact ⟨_, rfl⟩
  rcases parentB : m.tree.parent b with _ | p
  · simp only [delete, branchIndexGet, found, show (m.tree.mem b).parent = none from parentB]
    exact ⟨_, rfl⟩
  · have space := room m.tree.branch
    have single := few b found (by simp [parentB])
    rcases deleteChildren_returns wf none' parentB (by omega) with ⟨m₁, emptied⟩
    exact delete_of_emptied wf found parentB emptied none

/-- How many branches the call may add. -/
def Call.grows : Call → ℕ
  | .insert .. => 1
  | _ => 0

/-- The call is an insert, a move or a delete. -/
def Call.IsSingle : Call → Prop
  | .insert .. | .move .. | .delete .. => True
  | _ => False

theorem call_returns {call : Call} (wf : m.tree.WellFormed) (none' : m.overlay.NoViews)
    (room : ∀ b, (m.tree.children b).length < 65535) (single : call.IsSingle)
    (few : call.DeletesFew m.tree) : ∃ m', m.call call = .ok m' := by
  cases call with
  | insert viewId parentId branchId pos text mark doc =>
      simp only [Map.call, viewIndexGet, none'.index]
      rcases insert_returns wf none' (fun pb _ => room pb) pos with ⟨s, inserted, _⟩
      exact ⟨s.1, map_eq_ok.mpr ⟨s, inserted, rfl⟩⟩
  | move viewId newParentId oldParentId branchId pos =>
      simp only [Map.call, viewIndexGet, none'.index]
      rcases move_returns wf none' (fun b _ => room b) pos with ⟨s, moved, _⟩
      exact ⟨s.1, map_eq_ok.mpr ⟨s, moved, rfl⟩⟩
  | delete viewId branchId =>
      simp only [Map.call, viewIndexGet, none'.index]
      exact delete_returns wf none' room few
  | _ => exact single.elim

end NoViews

/-- A small tree has room everywhere. -/
theorem Tree.WellFormed.children_length_lt {t : Tree} (wf : t.WellFormed) (few : t.next < 65535)
    (p : BranchPtr) : (t.children p).length < 65535 := by
  have sub : t.children p ⊆ List.range t.next := by
    intro c member
    exact List.mem_range.mpr (wf.parent_lt (wf.mirrors.mem_iff.mp member)).1
  have short := ((wf.mirrors.nodup p).subperm sub).length_le
  rw [List.length_range] at short
  exact short.trans_lt few

/-- No child list is asked to take one more entry than 65535 in the run. -/
def Map.NeverFull (m : Map) (calls : List Call) : Prop :=
  m.run calls ≠ .error .childOverflow

theorem neverFull_of_ends {m : Map} {calls : List Call} (ends : (m.run calls).toBool = true) :
    m.NeverFull calls := by
  intro full
  simp [full, Except.toBool] at ends

theorem run_onlyOverflow {m : Map} (wf : m.tree.WellFormed) (none' : m.overlay.NoViews)
    {calls : List Call} (edits : ∀ call ∈ calls, call.EditsTree) :
    Ends (fun e => e = .childOverflow) (fun m : Map => m.tree.WellFormed ∧ m.overlay.NoViews)
      (m.run calls) := by
  refine Ends.foldlM (P := fun m : Map => m.tree.WellFormed ∧ m.overlay.NoViews) ?_ ⟨wf, none'⟩
  rintro s call member ⟨wf, none'⟩
  have both := (call_onlyOverflow wf none' (edits call member)).and fun _ => call_wellFormed wf
  cases outcome : s.call call with
  | error e =>
      rw [outcome] at both
      exact both
  | ok s' =>
      rw [outcome] at both
      exact ⟨both.2, both.1⟩

theorem run_noViews {m m' : Map} (wf : m.tree.WellFormed) (none' : m.overlay.NoViews)
    {calls : List Call} (edits : ∀ call ∈ calls, call.EditsTree) (run : m.run calls = .ok m') :
    m'.overlay.NoViews := by
  have ends := run_onlyOverflow wf none' edits
  rw [run] at ends
  exact ends.2

/-- Without views, a run of inserts, moves and deletes can only fail at a full child list. -/
theorem run_ends {m : Map} (wf : m.tree.WellFormed) (none' : m.overlay.NoViews)
    {calls : List Call} (edits : ∀ call ∈ calls, call.EditsTree) (room : m.NeverFull calls) :
    ∃ m', m.run calls = .ok m' := by
  have ends := run_onlyOverflow wf none' edits
  cases outcome : m.run calls with
  | error e =>
      rw [outcome] at ends
      simp only [Ends] at ends
      subst ends
      exact absurd outcome room
  | ok m' => exact ⟨m', rfl⟩

/--
A run of inserts, moves and deletes from a map that holds only its root comes to an end, unless it
meets a full child list, and leaves a forest.
-/
theorem run_structured {m : Map} (start : m.HoldsOnlyRoot) (calls : List Call)
    (edits : ∀ call ∈ calls, call.EditsTree) (room : m.NeverFull calls) :
    ∃ m', m.run calls = .ok m' ∧ m'.tree.Structured := by
  rcases run_ends start.wellFormed start.views edits room with ⟨m', run⟩
  have wf := run_wellFormed start.wellFormed run
  exact ⟨m', run, wf.structured⟩

/-- `branch_calculate` finds nothing to count in a map without branches below the root. -/
theorem mapCreateEmpty_tree (id : UInt32) :
    (mapCreateEmpty id).tree = ioBranchNew (rootTree 1 (cstr "My map")) 0 := by
  rfl

theorem mapCreateEmpty_mem (id : UInt32) :
    (mapCreateEmpty id).tree.mem = (rootTree 1 (cstr "My map")).mem := by
  rw [mapCreateEmpty_tree]
  exact (ioSaveBranchData_fields _ _).1

theorem mapCreateEmpty_holdsOnlyRoot (id : UInt32) : (mapCreateEmpty id).HoldsOnlyRoot where
  next := rfl
  root := rfl
  bare := by
    intro b
    rw [mapCreateEmpty_mem]
    by_cases root : b = 0
    · subst root
      exact ⟨rfl, rfl, rfl⟩
    · simp [rootTree, root]
  index := by
    intro k
    have stored := (ioSaveBranchData_fields
      ((rootTree 1 (cstr "My map")).flush (ioBranchNewWrites (rootTree 1 (cstr "My map")) 0))
      0).2.2.2.1
    rw [mapCreateEmpty_mem]
    change (ioBranchNew (rootTree 1 (cstr "My map")) 0).branchIndex k = _
    rw [ioBranchNew, stored]
    simp [rootTree, flush, Function.update_apply]
  views := ⟨fun _ => rfl, fun _ => rfl⟩

/-- Two children are inserted below the root, one moves below the other, which is then deleted. -/
theorem run_structured_example :
    ∃ m', (mapCreateEmpty 1).run
        [.insert 0 1 2 0 [] 0 0, .insert 0 1 3 0 [] 0 0, .move 0 2 1 3 0, .delete 0 2] = .ok m' ∧
      m'.tree.Structured := by
  apply run_structured (mapCreateEmpty_holdsOnlyRoot 1)
  · simp [Call.EditsTree]
  · apply neverFull_of_ends
    decide +kernel

end Treedb
