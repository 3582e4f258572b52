import Treedb.View.Operations

/-!
# Branches that are not there yet

Whatever the state of the views, a vbranch is only ever attached to the root, to a branch of the
index or to a child of some branch, and only right after it was made. So an address that was not
handed out has no vbranches and is no vbranch of any branch: a new branch starts with none, a new
vbranch is on no list, and no list holds a vbranch twice. Unlike `Sound`, this holds after every
run of calls.
-/

namespace Treedb

open Forest Overlay Outcome Treedb.Tree

/--
Addresses from `n` on have no vbranches, and a list holds only cells that were handed out, each of
them once.
-/
structure Overlay.Unborn (n : ℕ) (o : Overlay) : Prop where
  bare : ∀ b, n ≤ b → o.vbranchList b = []
  made : ∀ b, ∀ vb ∈ o.vbranchList b, vb.cell < o.vnext
  nodup : ∀ b, (o.vbranchList b).Nodup

/-- The lists are the same, and no cell was taken back. -/
structure Overlay.KeepsAttached (o o' : Overlay) : Prop where
  lists : o'.vbranchList = o.vbranchList
  cells : o.vnext ≤ o'.vnext

theorem Overlay.KeepsAttached.trans {o o' o'' : Overlay} (first : KeepsAttached o o')
    (second : KeepsAttached o' o'') : KeepsAttached o o'' :=
  ⟨second.lists.trans first.lists, first.cells.trans second.cells⟩

section Views

variable {n : ℕ} {t : Tree} {o o' : Overlay} {v : ViewPtr} {view : Option ViewPtr} {b pb : BranchPtr}

theorem Overlay.Unborn.mono {n' : ℕ} (unborn : Unborn n o) (le : n ≤ n') : Unborn n' o :=
  ⟨fun b late => unborn.bare b (le.trans late), unborn.made, unborn.nodup⟩

theorem Overlay.Unborn.alike (unborn : Unborn n o) (same : KeepsAttached o o') : Unborn n o' := by
  constructor
  · intro b late
    rw [same.lists]
    exact unborn.bare b late
  · intro b vb member
    rw [same.lists] at member
    exact (unborn.made b vb member).trans_le same.cells
  · intro b
    rw [same.lists]
    exact unborn.nodup b

theorem Overlay.Unborn.push (unborn : Unborn n o) (msg : Message) : Unborn n (o.push msg) :=
  unborn.alike ⟨rfl, le_rfl⟩

theorem Overlay.Unborn.branchAttachVbranch {vb : VbranchPtr} (unborn : Unborn n o) (born : b < n)
    (made : vb.cell < o.vnext) (new : vb ∉ o.vbranchList b) :
    Unborn n (branchAttachVbranch o b vb) := by
  constructor
  · intro c late
    have other : c ≠ b := (born.trans_le late).ne'
    simp only [Treedb.branchAttachVbranch, Function.update_of_ne other]
    exact unborn.bare c late
  · intro c x member
    by_cases here : c = b
    · subst here
      simp only [Treedb.branchAttachVbranch, Function.update_self, List.mem_append,
        List.mem_singleton] at member
      rcases member with old | rfl
      · exact unborn.made c x old
      · exact made
    · simp only [Treedb.branchAttachVbranch, Function.update_of_ne here] at member
      exact unborn.made c x member
  · intro c
    by_cases here : c = b
    · subst here
      simp only [Treedb.branchAttachVbranch, Function.update_self]
      exact (unborn.nodup c).append (List.nodup_singleton vb) (by simpa using new)
    · simp only [Treedb.branchAttachVbranch, Function.update_of_ne here]
      exact unborn.nodup c

/-- The next cell is on no list. -/
theorem Overlay.Unborn.next_not_mem (unborn : Unborn n o) (v : ViewPtr) (b : BranchPtr) :
    ⟨v, o.vnext⟩ ∉ o.vbranchList b := by
  intro member
  exact (unborn.made b _ member).ne rfl

theorem Overlay.Unborn.addVbranch {new : Vbranch} (unborn : Unborn n o) (born : new.branch < n)
    (t : Tree) (v : ViewPtr) : Unborn n (addVbranch t o v new).1 := by
  apply Unborn.branchAttachVbranch _ born
  · exact Nat.lt_succ_self o.vnext
  · exact unborn.next_not_mem v new.branch
  · exact unborn.alike ⟨rfl, Nat.le_succ _⟩

theorem Overlay.Unborn.branchDetachVbranch (unborn : Unborn n o) (vb : VbranchPtr) :
    Unborn n (branchDetachVbranch o vb) := by
  have shorter : ∀ c,
      ((Treedb.branchDetachVbranch o vb).vbranchList c).Sublist (o.vbranchList c) := by
    intro c
    by_cases here : c = (o.vmem vb).branch
    · simp only [Treedb.branchDetachVbranch, ← here, Function.update_self]
      exact (List.take_sublist _ _).trans List.filter_sublist
    · simp only [Treedb.branchDetachVbranch, Function.update_of_ne here]
      exact List.Sublist.refl _
  constructor
  · intro c late
    have nothing := shorter c
    rw [unborn.bare c late] at nothing
    exact List.sublist_nil.mp nothing
  · intro c x member
    exact unborn.made c x ((shorter c).subset member)
  · intro c
    exact (unborn.nodup c).sublist (shorter c)

theorem Overlay.Unborn.viewDestroyVbranch (unborn : Unborn n o) (depth : ℕ) (vb : VbranchPtr) :
    Unborn n (viewDestroyVbranch depth o vb) := by
  induction depth generalizing o vb with
  | zero => exact unborn
  | succ depth ih =>
      apply Unborn.branchDetachVbranch
      exact List.foldlRecOn _ _ unborn fun _ before _ _ => ih before _

theorem Overlay.Unborn.dropView (unborn : Unborn n o) (viewId : UInt32) :
    Unborn n (dropView o viewId) := by
  unfold Treedb.dropView
  split
  · exact (unborn.viewDestroyVbranch _ _).alike ⟨rfl, le_rfl⟩
  · exact unborn

theorem setParents_keeps (o : Overlay) (x : VbranchPtr) (list : List VbranchPtr) :
    KeepsAttached o (setParents o x list) := by
  induction list generalizing o with
  | nil => exact ⟨rfl, le_rfl⟩
  | cons z list ih =>
      have rest := ih (o.modify z fun y => { y with parent := some x })
      exact ⟨rest.lists, rest.cells⟩

theorem Overlay.Unborn.expandSiblings (unborn : Unborn n o) (bs : List BranchPtr)
    (born : ∀ c ∈ bs, c < n) (prev : Option (List VbranchPtr)) :
    Unborn n (bs.foldl (expandSibling t v b) (o, prev, [])).1 := by
  refine List.foldlRecOn bs (expandSibling t v b)
    (motive := fun s : Overlay × Option (List VbranchPtr) × List VbranchPtr => Unborn n s.1)
    unborn ?_
  rintro ⟨o₁, _ | list, _⟩ before c member
  · exact before.addVbranch (born c member) t v
  · simp only [expandSibling]
    split
    · exact (before.addVbranch (born c member) t v).alike (setParents_keeps _ _ _)
    · exact before.addVbranch (born c member) t v

/-- The children of any branch were handed out. -/
theorem Tree.WellFormed.child_lt (wf : t.WellFormed) (pb : BranchPtr) :
    ∀ c ∈ (t.mem pb).childList.take (t.mem pb).childN.toNat, c < t.next := by
  intro c member
  rw [wf.take_children] at member
  exact (wf.parent_lt (wf.mirrors.mem_iff.mp member)).1

theorem Overlay.Unborn.expandToLoop (unborn : Unborn t.next o) (wf : t.WellFormed) (fuel : ℕ)
    {prev : Option (List VbranchPtr)} {s : Overlay × Option VbranchPtr}
    (run : expandToLoop t v fuel o b prev = .ok s) : Unborn t.next s.1 := by
  induction fuel generalizing o b prev with
  | zero =>
      rw [← Except.ok.inj run]
      exact unborn
  | succ fuel ih =>
      simp only [Treedb.expandToLoop] at run
      split at run
      · split at run
        · rw [← Except.ok.inj run]
          exact unborn
        · rename_i found _ _ list
          rw [← Except.ok.inj run]
          have kept := setParents_keeps (o.modify found fun x => { x with childList := list }) found list
          exact unborn.alike ⟨kept.lists, kept.cells⟩
      · split at run
        · simp at run
        · exact ih (unborn.expandSiblings _ (wf.child_lt _) prev) run

theorem Overlay.Unborn.expandChildren (unborn : Unborn t.next o) (wf : t.WellFormed) (v : ViewPtr)
    (b : BranchPtr) : Unborn t.next (expandChildren t o v b) := by
  unfold Treedb.expandChildren
  split
  · exact unborn
  · split
    · exact unborn
    · rename_i vb _
      refine Unborn.alike (List.foldlRecOn (motive := fun s : Overlay × List VbranchPtr =>
        Unborn t.next s.1) _ _ unborn ?_) ⟨rfl, le_rfl⟩
      intro s before c member
      exact before.addVbranch (wf.child_lt b c member) t v

theorem Overlay.Unborn.viewExpandTo (unborn : Unborn t.next o) (wf : t.WellFormed)
    {withChildren : Bool} {s : Overlay × Option VbranchPtr}
    (run : viewExpandTo t o v b withChildren = .ok s) : Unborn t.next s.1 := by
  rcases bind_eq_ok.mp run with ⟨s₁, climbed, rest⟩
  have before : Unborn t.next s₁.1 := by
    unfold expandPath at climbed
    split at climbed
    · rw [← Except.ok.inj climbed]
      exact unborn
    · exact unborn.expandToLoop wf _ climbed
  rw [← Except.ok.inj rest]
  split
  · exact before.expandChildren wf v b
  · exact before

theorem Overlay.Unborn.expand (unborn : Unborn t.next o) (wf : t.WellFormed) (vb : VbranchPtr) :
    Unborn t.next (expand t o vb) := by
  refine Unborn.alike (List.foldlRecOn (motive := fun s : Overlay × List VbranchPtr =>
    Unborn t.next s.1) _ _ unborn ?_) ⟨rfl, le_rfl⟩
  intro s before c member
  unfold expandChild
  split
  · exact before
  · exact before.addVbranch (wf.child_lt _ c member) t vb.view

theorem Overlay.Unborn.viewExpandLoop (unborn : Unborn t.next o) (wf : t.WellFormed) (levels : ℕ)
    (vb : VbranchPtr) : Unborn t.next (viewExpandLoop t levels o vb) := by
  induction levels generalizing o vb with
  | zero => exact unborn
  | succ levels ih =>
      simp only [Treedb.viewExpandLoop]
      refine List.foldlRecOn _ _ ?_ fun _ before _ _ => ih before _
      split
      · exact unborn
      · exact unborn.expand wf vb

theorem vbranchAdd_keeps {x y : VbranchPtr} (run : vbranchAdd t o x y = .ok o') :
    KeepsAttached o o' := by
  rcases bind_eq_ok.mp run with ⟨childs, _, rest⟩
  rw [← Except.ok.inj rest]
  exact ⟨rfl, le_rfl⟩

theorem vbranchDetach_keeps (o : Overlay) (x : VbranchPtr) :
    KeepsAttached o (vbranchDetach o x) := by
  rw [vbranchDetach]
  split <;> exact ⟨rfl, le_rfl⟩

/-- A new vbranch is linked below another one and then attached to its branch. -/
theorem Overlay.Unborn.attachNew {new : Vbranch} {y : VbranchPtr} (unborn : Unborn n o)
    (born : b < n)
    (added : vbranchAdd t (vbranchIndexPut t (vbranchNew o v new).1 v (vbranchNew o v new).2)
      (vbranchNew o v new).2 y = .ok o') :
    Unborn n (Treedb.branchAttachVbranch o' b (vbranchNew o v new).2) := by
  have kept := vbranchAdd_keeps added
  have made : o.vnext < o'.vnext := kept.cells
  refine (unborn.alike ⟨kept.lists, made.le⟩).branchAttachVbranch born made ?_
  rw [kept.lists]
  exact unborn.next_not_mem v b

theorem Overlay.Unborn.insertExpand {pos : UInt32} (unborn : Unborn t.next o) (wf : t.WellFormed)
    (run : insertExpand t o view pb pos = .ok o') : Unborn t.next o' := by
  unfold Treedb.insertExpand at run
  split at run
  · rw [← Except.ok.inj run]
    exact unborn
  · split at run
    · rw [← Except.ok.inj run]
      exact unborn
    · rcases bind_eq_ok.mp run with ⟨s, expanded, rest⟩
      have after := unborn.viewExpandTo wf expanded
      split at rest
      · rw [← Except.ok.inj rest]
        exact after
      · rw [← Except.ok.inj rest]
        exact after.alike ⟨rfl, le_rfl⟩

theorem Overlay.Unborn.insertVbranch {parentId : UInt64} {nb : BranchPtr} {pos : UInt32}
    {pvb : VbranchPtr} (unborn : Unborn n o) (born : nb < n)
    (run : insertVbranch t view parentId nb pos o pvb = .ok o') : Unborn n o' := by
  unfold Treedb.insertVbranch at run
  split at run
  · rw [← Except.ok.inj run]
    exact unborn
  · rcases bind_eq_ok.mp run with ⟨o₁, added, rest⟩
    have after := unborn.attachNew born added
    split at rest
    · rw [← Except.ok.inj rest]
      exact after.push _
    · rw [← Except.ok.inj rest]
      exact after

/-- Counting only sends messages. -/
theorem Overlay.Unborn.insertCount {vbr : VbranchPtr} (unborn : Unborn n o)
    (run : insertCount t view pb o vbr = .ok o') : Unborn n o' := by
  rcases insertCount_cases run with rfl | ⟨msg, rfl⟩
  · exact unborn
  · exact unborn.push msg

theorem Overlay.Unborn.deleteInView {vbr : VbranchPtr} (unborn : Unborn n o)
    (run : deleteInView t view b o vbr = .ok o') : Unborn n o' := by
  unfold Treedb.deleteInView at run
  split at run
  · rename_i vb _
    have after := unborn.alike (vbranchDetach_keeps o vb)
    split at run
    · rw [← Except.ok.inj run]
      exact after.push _
    · rw [← Except.ok.inj run]
      exact after
  · split at run
    · split at run
      · simp at run
      · split at run
        · rw [← Except.ok.inj run]
          exact unborn
        · rw [← Except.ok.inj run]
          exact unborn.push _
    · rw [← Except.ok.inj run]
      exact unborn

theorem Overlay.Unborn.moveVbranch {vbr vb vnpb : VbranchPtr} {npb : BranchPtr} {pos : UInt16}
    (unborn : Unborn n o) (run : moveVbranch t o view vbr vb vnpb b npb pos = .ok o') :
    Unborn n o' := by
  rcases bind_eq_ok.mp run with ⟨o₁, added, rest⟩
  have before : Unborn n o₁ :=
    unborn.alike ((vbranchDetach_keeps o vb).trans (vbranchAdd_keeps added))
  split at rest
  · rw [← Except.ok.inj rest]
    exact before.alike ⟨rfl, le_rfl⟩
  · rw [← Except.ok.inj rest]
    exact before

theorem Overlay.Unborn.moveIntoView {vbr vnpb : VbranchPtr} {opb : BranchPtr} {newParentId : UInt64}
    {pos : UInt16} (unborn : Unborn n o) (born : b < n)
    (run : moveIntoView t o vbr vnpb b opb newParentId pos = .ok o') : Unborn n o' := by
  -- The count that is sent first changes nothing else.
  cases found : endpoint t o vbr.view opb with
  | none =>
      simp only [Treedb.moveIntoView, found] at run
      rcases bind_eq_ok.mp run with ⟨o₁, added, rest⟩
      rw [← Except.ok.inj rest]
      exact (unborn.attachNew born added).push _
  | some ep =>
      simp only [Treedb.moveIntoView, found] at run
      rcases bind_eq_ok.mp run with ⟨o₁, added, rest⟩
      rw [← Except.ok.inj rest]
      exact ((unborn.push _).attachNew born added).push _

theorem Overlay.Unborn.moveInView {vbr : VbranchPtr} {opb npb : BranchPtr} {newParentId : UInt64}
    {pos : UInt16} (unborn : Unborn t.next o) (wf : t.WellFormed) (born : b < t.next)
    (run : moveInView t view b opb npb newParentId pos o vbr = .ok o') : Unborn t.next o' := by
  simp only [Treedb.moveInView] at run
  split at run
  · exact unborn.moveVbranch run
  · split at run
    · exact unborn.moveIntoView born run
    · rw [← Except.ok.inj run]
      exact unborn
  · rcases bind_eq_ok.mp run with ⟨s, expanded, rest⟩
    have after := unborn.viewExpandTo wf expanded
    split at rest
    · rw [← Except.ok.inj rest]
      exact after
    · simp only at rest
      split at rest
      · simp at rest
      · exact (after.push _).moveVbranch rest
  · split at run
    · unfold moveHidden at run
      split at run
      · rw [← Except.ok.inj run]
        exact unborn
      · split at run
        · rw [← Except.ok.inj run]
          exact unborn
        · rw [← Except.ok.inj run]
          exact unborn.alike ⟨rfl, le_rfl⟩
      · simp at run
    · rw [← Except.ok.inj run]
      exact unborn

theorem Overlay.Unborn.showBranch (unborn : Unborn t.next o) (wf : t.WellFormed)
    (run : showBranch t v o b = .ok o') : Unborn t.next o' := by
  rcases bind_eq_ok.mp run with ⟨s, expanded, rest⟩
  have after := unborn.viewExpandTo wf expanded
  split at rest
  · simp at rest
  · rw [← Except.ok.inj rest]
    exact List.foldlRecOn _ _ after fun _ before _ _ => before.alike ⟨rfl, le_rfl⟩

theorem Overlay.Unborn.createRootView (unborn : Unborn t.next o) (wf : t.WellFormed)
    (viewId : UInt32) (visible : Bool) : Unborn t.next (createRootView t o viewId visible).1 := by
  apply Unborn.addVbranch _ wf.root_lt
  exact unborn.alike ⟨rfl, le_rfl⟩

theorem Overlay.Unborn.initView {viewId : UInt32} {branchId docId : UInt64} {query : CString}
    {endpointIds rows : List UInt64} {s : Overlay × ViewPtr} (unborn : Unborn t.next o)
    (wf : t.WellFormed) (run : initView t o viewId branchId query docId endpointIds rows = .ok s) :
    Unborn t.next s.1 := by
  unfold Treedb.initView at run
  split at run
  · rcases bind_eq_ok.mp run with ⟨o₁, shown, rest⟩
    rw [← Except.ok.inj rest]
    exact foldlM_invariant (Unborn t.next) (fun _ _ _ _ before step => before.showBranch wf step)
      ((unborn.dropView viewId).createRootView wf viewId false) shown
  · rcases bind_eq_ok.mp run with ⟨s₁, expanded, rest⟩
    rw [← Except.ok.inj rest]
    have after := ((unborn.dropView viewId).createRootView wf viewId true).viewExpandTo wf expanded
    exact List.foldlRecOn _ _ after fun _ before _ _ => before.alike ⟨rfl, le_rfl⟩

end Views

/-! ## Calls -/

/-- No address that is still to be handed out has a vbranch. -/
def Map.Unborn (m : Map) : Prop :=
  m.overlay.Unborn m.tree.next

section Calls

variable {m m' : Map} {view : Option ViewPtr} {parentId branchId newParentId oldParentId : UInt64}
  {text : CString} {mark doc : UInt64} {names : List CString} {parent b p : BranchPtr}

theorem Map.Unborn.insert {pos : UInt32} {r : Option BranchPtr} (unborn : m.Unborn)
    (wf : m.tree.WellFormed) (run : insert m view parentId branchId pos text mark doc = .ok (m', r)) :
    m'.Unborn := by
  rcases insert_stages wf run with ⟨rfl, _⟩ | ⟨_, pb, o₁, o₂, stages⟩
  · exact unborn
  · have next : m'.tree.next = m.tree.next + 1 := by
      rw [stages.tree]
      exact (Edit.apply_fields _ _).2.1
    have born : m.tree.next < m'.tree.next := by omega
    have before := (Overlay.Unborn.insertExpand unborn wf stages.expanded).mono born.le
    have shown := foldlM_invariant (Overlay.Unborn m'.tree.next)
      (fun _ _ _ _ before step => before.insertVbranch born step) before stages.shown
    exact foldlM_invariant (Overlay.Unborn m'.tree.next)
      (fun _ _ _ _ before step => before.insertCount step) shown stages.counted

theorem Map.Unborn.insertPathLoop {r : Option BranchPtr} (unborn : m.Unborn)
    (wf : m.tree.WellFormed) (indexed : m.tree.Indexed parent)
    (run : insertPathLoop m parent names = .ok (m', r)) : m'.Unborn := by
  induction names generalizing m parent with
  | nil =>
      rw [← (Prod.mk.inj (Except.ok.inj run)).1]
      exact unborn
  | cons name names ih =>
      simp only [Treedb.insertPathLoop] at run
      split at run
      · rename_i child found
        rw [findChild, wf.take_children] at found
        have step := wf.mirrors.mem_iff.mp (List.mem_of_find?_eq_some found)
        exact ih unborn wf (wf.indexed_of_parent step) run
      · rcases bind_eq_ok.mp run with ⟨⟨m₁, made⟩, inserted, rest⟩
        have after := unborn.insert wf inserted
        rcases insert_edits False False wf (fun no => no.elim) inserted with ⟨edits, listed⟩
        cases made with
        | none =>
            rw [← (Prod.mk.inj (Except.ok.inj rest)).1]
            exact after
        | some child => exact ih after (edits.wellFormed wf) (listed child rfl) rest

theorem Map.Unborn.insertPath {r : Option BranchPtr} (unborn : m.Unborn) (wf : m.tree.WellFormed)
    (run : insertPath m parentId names = .ok (m', r)) : m'.Unborn := by
  unfold Treedb.insertPath at run
  split at run
  · rw [← (Prod.mk.inj (Except.ok.inj run)).1]
    exact unborn
  · rename_i parent found
    refine unborn.insertPathLoop wf ?_ run
    split at found
    · exact ⟨parentId, found⟩
    · exact Option.some.inj found ▸ wf.root_indexed

theorem Map.Unborn.move {pos : UInt16} {accepted : Bool} (unborn : m.Unborn)
    (wf : m.tree.WellFormed)
    (run : move m view newParentId oldParentId branchId pos = .ok (m', accepted)) : m'.Unborn := by
  rcases check : moveCheck m.tree newParentId oldParentId branchId with _ | ⟨b, p⟩ | ⟨b, opb, npb⟩
  · simp only [Treedb.move, check, Except.ok.injEq, Prod.mk.injEq] at run
    rw [← run.1]
    exact unborn
  · simp only [Treedb.move, check] at run
    split at run
    · rw [← (Prod.mk.inj (Except.ok.inj run)).1]
      exact unborn
    · rw [← (Prod.mk.inj (Except.ok.inj run)).1]
      exact Overlay.Unborn.push unborn _
  · rcases move_stages wf check run with ⟨allowed, after, looped, _⟩
    have next : m'.tree.next = m.tree.next := by
      rw [after]
      exact (Edit.apply_fields _ _).2.1
    have born := (wf.parent_lt allowed.1).1
    unfold Map.Unborn
    rw [next]
    exact foldlM_invariant (Overlay.Unborn m.tree.next)
      (fun _ _ _ _ before step => before.moveInView wf born step) unborn looped

theorem Map.Unborn.delete (unborn : m.Unborn) (wf : m.tree.WellFormed)
    (run : delete m view branchId = .ok m') : m'.Unborn := by
  unfold Treedb.delete at run
  split at run
  · rw [← Except.ok.inj run]
    exact unborn
  · split at run
    · rw [← Except.ok.inj run]
      exact unborn
    · rename_i b _ _ p above
      rcases bind_eq_ok.mp run with ⟨m₁, emptied, rest⟩
      rcases bind_eq_ok.mp rest with ⟨o, told, rest⟩
      rcases deleteChildren_edits False False _ _ wf above emptied with ⟨edits, above₁⟩
      have moved : m₁.Unborn := (deleteChildren_invariant (R := Map.Unborn) _ _
        (fun _ _ _ _ wf₁ _ _ before step => before.move wf₁ step) wf above unborn emptied).1
      have after := foldlM_invariant (Overlay.Unborn m₁.tree.next)
        (fun _ _ _ _ before step => before.deleteInView step) moved told
      rw [show (m₁.tree.mem b).parent = some p from above₁] at rest
      simp only [pure_eq_ok, Except.ok.injEq] at rest
      rw [← rest]
      have tree := (edits.wellFormed wf).deleteBranch_eq above₁
      have next : (deleteBranch m₁.tree b p).next = m₁.tree.next := by
        rw [tree]
        exact (Edit.apply_fields _ _).2.1
      unfold Map.Unborn
      rw [next]
      split
      · exact after.push _
      · exact after

theorem setVisible_unborn (unborn : m.Unborn) (v : ViewPtr) (visible : Bool)
    (branchIds : List UInt64) : (setVisible m v visible branchIds).Unborn := by
  refine List.foldlRecOn (motive := Overlay.Unborn m.tree.next) _ _ unborn ?_
  intro o before id _
  split
  · exact before
  · exact before.alike ⟨rfl, le_rfl⟩

theorem Map.Unborn.call {call : Call} (unborn : m.Unborn) (wf : m.tree.WellFormed)
    (run : m.call call = .ok m') : m'.Unborn := by
  have onView : ∀ {viewId : UInt32} {f : ViewPtr → Except Fault Map},
      (∀ v, f v = .ok m' → m'.Unborn) → m.onView viewId f = .ok m' → m'.Unborn := by
    intro viewId f each run
    unfold Map.onView at run
    split at run
    · rw [← Except.ok.inj run]
      exact unborn
    · exact each _ run
  cases call with
  | insert viewId parentId branchId pos text mark doc =>
      rcases map_eq_ok.mp run with ⟨⟨m₁, r⟩, inserted, rfl⟩
      exact unborn.insert wf inserted
  | insertInPath parentId names branchId text mark doc =>
      rcases map_eq_ok.mp run with ⟨⟨m₁, r⟩, ran, rfl⟩
      rcases insertInPath_stages ran with ⟨m₂, x, path, ⟨_, rfl, _⟩ | ⟨e, _, inserted⟩⟩
      · exact unborn.insertPath wf path
      · have wf₂ := (insertPath_edits False False wf path).1.wellFormed wf
        exact (unborn.insertPath wf path).insert wf₂ inserted
  | move viewId newParentId oldParentId branchId pos =>
      rcases map_eq_ok.mp run with ⟨⟨m₁, accepted⟩, moved, rfl⟩
      exact unborn.move wf moved
  | moveToPath parentId names branchId =>
      rcases moveToPath_stages run with ⟨m₂, x, path, ⟨rfl, _⟩ | ⟨e, b, p, accepted, _, _, _, moved⟩⟩
      · exact unborn.insertPath wf path
      · have wf₂ := (insertPath_edits False False wf path).1.wellFormed wf
        exact (unborn.insertPath wf path).move wf₂ moved
  | delete viewId branchId => exact unborn.delete wf run
  | update viewId branchId text doc =>
      rw [← Except.ok.inj run]
      unfold Treedb.update
      split
      · exact unborn
      · unfold Map.Unborn
        rw [(ioSaveBranchData_fields _ _).2.1]
        refine List.foldlRecOn (motive := Overlay.Unborn m.tree.next) _ _ unborn ?_
        intro o before vb _
        unfold updateMessage
        split
        · exact before.push _
        · exact before
  | initView viewId reqId branchId query docId endpointIds rows =>
      rcases bind_eq_ok.mp run with ⟨s, made, rest⟩
      rw [← Except.ok.inj rest]
      exact (Overlay.Unborn.initView unborn wf made).push _
  | destroyView viewId =>
      refine onView ?_ run
      intro v run
      rw [← Except.ok.inj run]
      exact (Overlay.Unborn.viewDestroyVbranch unborn _ _).alike ⟨rfl, le_rfl⟩
  | visible viewId branchIds =>
      refine onView ?_ run
      intro v run
      rw [← Except.ok.inj run]
      exact setVisible_unborn unborn v true branchIds
  | invisible viewId branchIds =>
      refine onView ?_ run
      intro v run
      rw [← Except.ok.inj run]
      exact setVisible_unborn unborn v false branchIds
  | expandTo viewId branchId =>
      refine onView ?_ run
      intro v run
      unfold mapExpandTo at run
      split at run
      · rw [← Except.ok.inj run]
        exact unborn
      · rcases bind_eq_ok.mp run with ⟨s, expanded, rest⟩
        have after := Overlay.Unborn.viewExpandTo unborn wf expanded
        split at rest
        · rw [← Except.ok.inj rest]
          exact after
        · rw [← Except.ok.inj rest]
          exact after.alike ⟨rfl, le_rfl⟩
  | branchUnfold viewId branchId =>
      refine onView ?_ run
      intro v run
      rw [← Except.ok.inj run]
      unfold mapBranchUnfold
      split
      · exact unborn
      · split
        · exact unborn
        · exact (Overlay.Unborn.viewExpandLoop unborn wf _ _).alike ⟨rfl, le_rfl⟩

/-- After every run of calls. -/
theorem Map.Unborn.run {calls : List Call} (unborn : m.Unborn) (wf : m.tree.WellFormed)
    (ran : m.run calls = .ok m') : m'.Unborn := by
  refine (foldlM_invariant (fun m : Map => m.tree.WellFormed ∧ m.Unborn) ?_ ⟨wf, unborn⟩ ran).2
  rintro m₁ call m₂ _ ⟨wf₁, before⟩ step
  exact ⟨call_wellFormed wf₁ step, before.call wf₁ step⟩

theorem Map.unborn_of_bare (bare : ∀ b, m.overlay.vbranchList b = []) : m.Unborn where
  bare := fun b _ => bare b
  made := by simp [bare]
  nodup := by simp [bare]

end Calls

end Treedb
