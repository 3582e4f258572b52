import Treedb.Request

/-!
# Outgoing messages

The operations on a map put messages for the clients into its queue, and none takes one out or looks
at what is there. So a request adds some messages to those that were queued before, in whatever state
the map is, and no operation acknowledges a request: `map_proc` alone does, at the end of each.
-/

namespace Treedb

open Outcome

/-- Messages that are no acknowledgements were queued behind what was queued before. -/
def Overlay.Appends (o o' : Overlay) : Prop :=
  ∃ sent, o'.outQ = o.outQ ++ sent ∧ Message.ack ∉ sent

namespace Overlay.Appends

variable {o o' o'' : Overlay}

theorem of_eq (same : o'.outQ = o.outQ) : o.Appends o' :=
  ⟨[], by rw [same, List.append_nil], List.not_mem_nil⟩

theorem refl (o : Overlay) : o.Appends o :=
  of_eq rfl

theorem trans (first : o.Appends o') (rest : o'.Appends o'') : o.Appends o'' := by
  rcases first with ⟨sent, queued, told⟩
  rcases rest with ⟨sent', queued', told'⟩
  refine ⟨sent ++ sent', by rw [queued', queued, List.append_assoc], fun member => ?_⟩
  exact (List.mem_append.mp member).elim told told'

theorem push {msg : Message} (first : o.Appends o') (told : msg ≠ .ack) :
    o.Appends (o'.push msg) :=
  first.trans ⟨[msg], rfl, fun member => told (List.mem_singleton.mp member).symm⟩

theorem kept (appends : o.Appends o') : o.outQ <+: o'.outQ := by
  rcases appends with ⟨sent, queued, _⟩
  exact ⟨sent, queued.symm⟩

end Overlay.Appends

/-! ## What leaves the queue as it is -/

section Silent

variable {t : Tree} {o : Overlay} {view : ViewPtr} {vb : VbranchPtr} {b : BranchPtr}

theorem foldl_keeps {σ ι γ : Type} {f : σ → ι → σ} (g : σ → γ) (keeps : ∀ s i, g (f s i) = g s)
    (list : List ι) (s : σ) : g (list.foldl f s) = g s := by
  induction list generalizing s with
  | nil => rfl
  | cons i list ih => rw [List.foldl_cons, ih, keeps]

@[simp]
theorem vbranchIndexPut_outQ : (vbranchIndexPut t o view vb).outQ = o.outQ :=
  rfl

@[simp]
theorem vbranchNew_outQ (x : Vbranch) : (vbranchNew o view x).1.outQ = o.outQ :=
  rfl

@[simp]
theorem branchAttachVbranch_outQ : (branchAttachVbranch o b vb).outQ = o.outQ :=
  rfl

@[simp]
theorem vbranchDetach_outQ : (vbranchDetach o vb).outQ = o.outQ := by
  unfold vbranchDetach
  split <;> rfl

theorem vbranchAdd_outQ {current parent : VbranchPtr} {o' : Overlay}
    (run : vbranchAdd t o current parent = .ok o') : o'.outQ = o.outQ := by
  rcases bind_eq_ok.mp run with ⟨childs, _, result⟩
  rw [← Except.ok.inj result]
  rfl

@[simp]
theorem viewDestroyVbranch_outQ (depth : ℕ) :
    (viewDestroyVbranch depth o vb).outQ = o.outQ := by
  induction depth generalizing o vb with
  | zero => rfl
  | succ depth ih =>
      change ((o.vmem vb).childList.foldl (viewDestroyVbranch depth) o).outQ = o.outQ
      exact foldl_keeps Overlay.outQ (fun s i => ih) _ _

@[simp]
theorem viewDestroy_outQ : (viewDestroy o view).outQ = o.outQ :=
  viewDestroyVbranch_outQ _

@[simp]
theorem expand_outQ : (expand t o vb).outQ = o.outQ := by
  apply foldl_keeps fun s : Overlay × List VbranchPtr => s.1.outQ
  intro s b
  unfold expandChild
  split <;> rfl

@[simp]
theorem viewExpandLoop_outQ (levels : ℕ) : (viewExpandLoop t levels o vb).outQ = o.outQ := by
  induction levels generalizing o vb with
  | zero => rfl
  | succ levels ih =>
      refine (foldl_keeps Overlay.outQ (fun s i => ih) _ _).trans ?_
      split
      · rfl
      · exact expand_outQ

@[simp]
theorem viewExpand_outQ (level : ℕ) : (viewExpand t o vb level).outQ = o.outQ :=
  viewExpandLoop_outQ _

@[simp]
theorem outQ_setParents (list : List VbranchPtr) : (setParents o vb list).outQ = o.outQ := by
  apply foldl_keeps Overlay.outQ
  exact fun s c => rfl

theorem expandSibling_outQ (s : Overlay × Option (List VbranchPtr) × List VbranchPtr)
    (cur : BranchPtr) : (expandSibling t view b s cur).1.outQ = s.1.outQ := by
  rcases s with ⟨o, _ | prev, list⟩
  · rfl
  · dsimp only [expandSibling]
    split
    · exact outQ_setParents _
    · rfl

theorem expandToLoop_outQ {fuel : ℕ} {prev : Option (List VbranchPtr)} {s : Overlay × Option VbranchPtr}
    (run : expandToLoop t view fuel o b prev = .ok s) : s.1.outQ = o.outQ := by
  induction fuel generalizing o b prev with
  | zero =>
      rw [← Except.ok.inj run]
  | succ fuel ih =>
      unfold expandToLoop at run
      split at run
      · split at run
        · rw [← Except.ok.inj run]
        · rw [← Except.ok.inj run]
          exact outQ_setParents _
      · split at run
        · cases run
        · rw [ih run]
          exact foldl_keeps
            (fun s : Overlay × Option (List VbranchPtr) × List VbranchPtr => s.1.outQ)
            expandSibling_outQ _ _

@[simp]
theorem expandChildren_outQ : (expandChildren t o view b).outQ = o.outQ := by
  unfold expandChildren
  split
  · rfl
  · split
    · rfl
    · apply foldl_keeps fun s : Overlay × List VbranchPtr => s.1.outQ
      exact fun s c => rfl

theorem viewExpandTo_outQ {withChildren : Bool} {s : Overlay × Option VbranchPtr}
    (run : viewExpandTo t o view b withChildren = .ok s) : s.1.outQ = o.outQ := by
  rcases bind_eq_ok.mp run with ⟨path, climbed, result⟩
  have same : path.1.outQ = o.outQ := by
    unfold expandPath at climbed
    split at climbed
    · rw [← Except.ok.inj climbed]
    · exact expandToLoop_outQ climbed
  rw [← Except.ok.inj result]
  dsimp only
  split
  · rw [expandChildren_outQ, same]
  · exact same

@[simp]
theorem vbranchMakeVisiblePath_outQ : (vbranchMakeVisiblePath o vb).outQ = o.outQ := by
  apply foldl_keeps Overlay.outQ
  exact fun s c => rfl

theorem showBranch_outQ {o' : Overlay} (run : showBranch t view o b = .ok o') :
    o'.outQ = o.outQ := by
  rcases bind_eq_ok.mp run with ⟨s, expanded, result⟩
  split at result
  · cases result
  · rw [← Except.ok.inj result, vbranchMakeVisiblePath_outQ, viewExpandTo_outQ expanded]

theorem initView_outQ {viewId : UInt32} {branchId : UInt64} {query : CString} {docId : UInt64}
    {endpointIds rows : List UInt64} {s : Overlay × ViewPtr}
    (run : initView t o viewId branchId query docId endpointIds rows = .ok s) :
    s.1.outQ = o.outQ := by
  have dropped : (dropView o viewId).outQ = o.outQ := by
    unfold dropView
    split
    · exact viewDestroy_outQ
    · rfl
  unfold initView at run
  split at run
  · rcases bind_eq_ok.mp run with ⟨o₁, shown, result⟩
    rw [← Except.ok.inj result]
    apply foldlM_invariant (fun o₁ : Overlay => o₁.outQ = o.outQ) ?_ ?_ shown
    · exact fun s i s' _ before taken => (showBranch_outQ taken).trans before
    · exact dropped
  · rcases bind_eq_ok.mp run with ⟨s₁, expanded, result⟩
    rw [← Except.ok.inj result]
    refine Eq.trans ?_ ((viewExpandTo_outQ expanded).trans dropped)
    apply foldl_keeps Overlay.outQ
    exact fun s c => rfl

end Silent

/-! ## Operations -/

section Operations

variable {t : Tree} {o o' : Overlay} {m m' : Map}

theorem insertExpand_appends {view : Option ViewPtr} {pb : BranchPtr} {branchPos : UInt32}
    (run : insertExpand t o view pb branchPos = .ok o') : o.Appends o' := by
  unfold insertExpand at run
  split at run
  · exact .of_eq (Except.ok.inj run ▸ rfl)
  · split at run
    · exact .of_eq (Except.ok.inj run ▸ rfl)
    · rcases bind_eq_ok.mp run with ⟨s, expanded, result⟩
      have same := Overlay.Appends.of_eq (viewExpandTo_outQ expanded)
      split at result
      · exact Except.ok.inj result ▸ same
      · exact Except.ok.inj result ▸ same.push (by simp [expandedMessage])

theorem insertVbranch_appends {view : Option ViewPtr} {parentBranchId : UInt64} {nb : BranchPtr}
    {branchPos : UInt32} {pvb : VbranchPtr}
    (run : insertVbranch t view parentBranchId nb branchPos o pvb = .ok o') : o.Appends o' := by
  unfold insertVbranch at run
  split at run
  · exact .of_eq (Except.ok.inj run ▸ rfl)
  · rcases bind_eq_ok.mp run with ⟨o₁, added, result⟩
    have same : o₁.outQ = o.outQ := by
      rw [vbranchAdd_outQ added, vbranchIndexPut_outQ, vbranchNew_outQ]
    split at result
    · rw [← Except.ok.inj result]
      exact (Overlay.Appends.of_eq ((branchAttachVbranch_outQ ..).trans same)).push (by simp)
    · rw [← Except.ok.inj result]
      exact .of_eq ((branchAttachVbranch_outQ ..).trans same)

theorem insertCount_appends {view : Option ViewPtr} {pb : BranchPtr} {vbr : VbranchPtr}
    (run : insertCount t view pb o vbr = .ok o') : o.Appends o' := by
  simp only [insertCount] at run
  split at run
  · exact Except.ok.inj run ▸ .refl o
  · split at run
    · split at run
      · cases run
      · split at run
        · exact Except.ok.inj run ▸ .refl o
        · exact Except.ok.inj run ▸ (Overlay.Appends.refl o).push (by simp)
    · split at run
      · split at run
        · exact Except.ok.inj run ▸ .refl o
        · exact Except.ok.inj run ▸ (Overlay.Appends.refl o).push (by simp)
      · exact Except.ok.inj run ▸ .refl o

theorem insert_appends {view : Option ViewPtr} {parentBranchId branchId : UInt64}
    {branchPos : UInt32} {branchText : CString} {branchMarkId branchDocumentId : UInt64}
    {new : Option BranchPtr}
    (run : insert m view parentBranchId branchId branchPos branchText branchMarkId branchDocumentId =
      .ok (m', new)) : m.overlay.Appends m'.overlay := by
  unfold insert at run
  split at run
  · cases run
    exact .refl _
  · cases run
    exact .refl _
  · rcases bind_eq_ok.mp run with ⟨o₁, expanded, run⟩
    rcases bind_eq_ok.mp run with ⟨made, _, run⟩
    rcases bind_eq_ok.mp run with ⟨o₂, shown, run⟩
    rcases bind_eq_ok.mp run with ⟨o₃, counted, result⟩
    cases result
    have first := insertExpand_appends expanded
    have second := foldlM_invariant (fun o : Overlay => m.overlay.Appends o)
      (fun s i s' _ before taken => before.trans (insertVbranch_appends taken)) first shown
    exact foldlM_invariant (fun o : Overlay => m.overlay.Appends o)
      (fun s i s' _ before taken => before.trans (insertCount_appends taken)) second counted

theorem insertPathLoop_appends {parent : BranchPtr} {names : List CString} {new : Option BranchPtr}
    (run : insertPathLoop m parent names = .ok (m', new)) : m.overlay.Appends m'.overlay := by
  induction names generalizing m parent with
  | nil =>
      cases run
      exact .refl _
  | cons name names ih =>
      unfold insertPathLoop at run
      split at run
      · exact ih run
      · rcases bind_eq_ok.mp run with ⟨⟨m₁, child⟩, inserted, run⟩
        have first := insert_appends inserted
        split at run
        · cases run
          exact first
        · exact first.trans (ih run)

theorem insertPath_appends {parentId : UInt64} {names : List CString} {new : Option BranchPtr}
    (run : insertPath m parentId names = .ok (m', new)) : m.overlay.Appends m'.overlay := by
  unfold insertPath at run
  split at run
  · cases run
    exact .refl _
  · exact insertPathLoop_appends run

theorem insertInPath_appends {parentId : UInt64} {names : List CString} {branchId : UInt64}
    {branchText : CString} {branchMarkId branchDocumentId : UInt64} {new : Option BranchPtr}
    (run : insertInPath m parentId names branchId branchText branchMarkId branchDocumentId =
      .ok (m', new)) : m.overlay.Appends m'.overlay := by
  rcases bind_eq_ok.mp run with ⟨⟨m₁, parent⟩, made, run⟩
  have first := insertPath_appends made
  split at run
  · cases run
    exact first
  · exact first.trans (insert_appends run)

theorem update_appends (m : Map) (view : Option ViewPtr) (branchId : UInt64)
    (branchText : Option CString) (branchDocumentId : UInt64) :
    m.overlay.Appends (update m view branchId branchText branchDocumentId).overlay := by
  unfold update
  split
  · exact .refl _
  · rename_i b _
    have round : ∀ (t : Tree) (list : List VbranchPtr) (o : Overlay),
        o.Appends (list.foldl (updateMessage t view branchId b) o) := by
      intro t list
      induction list with
      | nil => exact .refl
      | cons vb list ih =>
          intro o
          refine Overlay.Appends.trans ?_ (ih _)
          unfold updateMessage
          split
          · exact (Overlay.Appends.refl o).push (by simp)
          · exact .refl o
    exact round _ _ _

theorem moveVbranch_appends {view : Option ViewPtr} {vbr vb vnpb : VbranchPtr} {b npb : BranchPtr}
    {branchPos : UInt16} (run : moveVbranch t o view vbr vb vnpb b npb branchPos = .ok o') :
    o.Appends o' := by
  rcases bind_eq_ok.mp run with ⟨o₁, added, result⟩
  have same : o₁.outQ = o.outQ := by rw [vbranchAdd_outQ added, vbranchDetach_outQ]
  split at result
  · exact Except.ok.inj result ▸ (Overlay.Appends.of_eq same).push (by simp [mapMoveMessage])
  · exact Except.ok.inj result ▸ .of_eq same

theorem moveIntoView_appends {vbr vnpb : VbranchPtr} {b opb : BranchPtr} {newParentId : UInt64}
    {branchPos : UInt16} (run : moveIntoView t o vbr vnpb b opb newParentId branchPos = .ok o') :
    o.Appends o' := by
  rcases bind_eq_ok.mp run with ⟨o₁, added, result⟩
  have same := vbranchAdd_outQ added
  rw [vbranchIndexPut_outQ, vbranchNew_outQ] at same
  have counted : o.Appends o₁ := by
    split at same
    · exact .of_eq same
    · exact ((Overlay.Appends.refl o).push (by simp)).trans (.of_eq same)
  rw [← Except.ok.inj result]
  exact (counted.trans (.of_eq (branchAttachVbranch_outQ ..))).push (by simp)

theorem moveExpanding_appends {view : Option ViewPtr} {vbr vb : VbranchPtr} {b npb : BranchPtr}
    {branchPos : UInt16} (run : moveExpanding t o view vbr vb b npb branchPos = .ok o') :
    o.Appends o' := by
  rcases bind_eq_ok.mp run with ⟨s, expanded, run⟩
  have same := Overlay.Appends.of_eq (viewExpandTo_outQ expanded)
  split at run
  · exact Except.ok.inj run ▸ same
  · dsimp only at run
    split at run
    · cases run
    · exact (same.push (by simp [expandedMessage])).trans (moveVbranch_appends run)

theorem moveHidden_appends {vbr : VbranchPtr} {b opb npb : BranchPtr}
    (run : moveHidden t o vbr b opb npb = .ok o') : o.Appends o' := by
  unfold moveHidden at run
  split at run
  · exact Except.ok.inj run ▸ .refl o
  · split at run
    · exact Except.ok.inj run ▸ .refl o
    · exact Except.ok.inj run ▸ ((Overlay.Appends.refl o).push (by simp)).push (by simp)
  · cases run

theorem moveInView_appends {view : Option ViewPtr} {b opb npb : BranchPtr} {newParentId : UInt64}
    {branchPos : UInt16} {vbr : VbranchPtr}
    (run : moveInView t view b opb npb newParentId branchPos o vbr = .ok o') : o.Appends o' := by
  dsimp only [moveInView] at run
  split at run
  · exact moveVbranch_appends run
  · split at run
    · exact moveIntoView_appends run
    · exact Except.ok.inj run ▸ .refl o
  · exact moveExpanding_appends run
  · split at run
    · exact moveHidden_appends run
    · exact Except.ok.inj run ▸ .refl o

theorem move_appends {view : Option ViewPtr} {newParentId oldParentId branchId : UInt64}
    {branchPos : UInt16} {done : Bool}
    (run : move m view newParentId oldParentId branchId branchPos = .ok (m', done)) :
    m.overlay.Appends m'.overlay := by
  unfold move at run
  split at run
  · cases run
    exact .refl _
  · split at run
    · cases run
      exact .refl _
    · cases run
      exact (Overlay.Appends.refl _).push (by simp)
  · rcases bind_eq_ok.mp run with ⟨o, moved, run⟩
    rcases bind_eq_ok.mp run with ⟨t, _, result⟩
    cases result
    exact foldlM_invariant (fun o : Overlay => m.overlay.Appends o)
      (fun s i s' _ before taken => before.trans (moveInView_appends taken)) (.refl _) moved

theorem deleteChildren_appends {b : BranchPtr} {fuel i : ℕ}
    (run : deleteChildren b fuel i m = .ok m') : m.overlay.Appends m'.overlay := by
  induction fuel generalizing i m with
  | zero => exact Except.ok.inj run ▸ .refl _
  | succ fuel ih =>
      unfold deleteChildren at run
      split at run
      · split at run
        · cases run
        · split at run
          · cases run
          · rcases bind_eq_ok.mp run with ⟨⟨m₁, done⟩, moved, rest⟩
            exact (move_appends moved).trans (ih rest)
      · exact Except.ok.inj run ▸ .refl _

theorem deleteInView_appends {view : Option ViewPtr} {b : BranchPtr} {vbr : VbranchPtr}
    (run : deleteInView t view b o vbr = .ok o') : o.Appends o' := by
  unfold deleteInView at run
  split at run
  · rename_i vb _
    have same : o.Appends (vbranchDetach o vb) := .of_eq vbranchDetach_outQ
    split at run
    · exact Except.ok.inj run ▸ same.push (by simp)
    · exact Except.ok.inj run ▸ same
  · split at run
    · split at run
      · cases run
      · split at run
        · exact Except.ok.inj run ▸ .refl o
        · exact Except.ok.inj run ▸ (Overlay.Appends.refl o).push (by simp)
    · exact Except.ok.inj run ▸ .refl o

theorem delete_appends {view : Option ViewPtr} {branchId : UInt64}
    (run : delete m view branchId = .ok m') : m.overlay.Appends m'.overlay := by
  unfold delete at run
  split at run
  · exact Except.ok.inj run ▸ .refl _
  · split at run
    · exact Except.ok.inj run ▸ .refl _
    · rcases bind_eq_ok.mp run with ⟨m₁, emptied, run⟩
      rcases bind_eq_ok.mp run with ⟨o, taken, run⟩
      have first := deleteChildren_appends emptied
      have second : m.overlay.Appends o :=
        foldlM_invariant (fun o : Overlay => m.overlay.Appends o)
          (fun s i s' _ before taken => before.trans (deleteInView_appends taken)) first taken
      dsimp only at run
      split at run
      · cases run
      · rw [← Except.ok.inj run]
        dsimp only
        split
        · exact second.push (by simp)
        · exact second

theorem moveToPath_appends {parentId : UInt64} {names : List CString} {branchId : UInt64}
    (run : moveToPath m parentId names branchId = .ok m') : m.overlay.Appends m'.overlay := by
  rcases bind_eq_ok.mp run with ⟨⟨m₁, parent⟩, made, run⟩
  have first := insertPath_appends made
  split at run
  · exact Except.ok.inj run ▸ first
  · split at run
    · exact Except.ok.inj run ▸ first
    · split at run
      · exact Except.ok.inj run ▸ first
      · rcases bind_eq_ok.mp run with ⟨⟨m₂, done⟩, moved, result⟩
        rw [← Except.ok.inj result]
        exact first.trans (move_appends moved)

theorem mapInitView_appends {viewId : UInt32} {reqId branchId : UInt64} {query : CString}
    {docId : UInt64} {endpointIds rows : List UInt64}
    (run : mapInitView m viewId reqId branchId query docId endpointIds rows = .ok m') :
    m.overlay.Appends m'.overlay := by
  rcases bind_eq_ok.mp run with ⟨s, made, result⟩
  rw [← Except.ok.inj result]
  exact (Overlay.Appends.of_eq (initView_outQ made)).push (by simp)

theorem setVisible_appends (m : Map) (view : ViewPtr) (visible : Bool) (branchIds : List UInt64) :
    m.overlay.Appends (setVisible m view visible branchIds).overlay := by
  apply Overlay.Appends.of_eq
  apply foldl_keeps Overlay.outQ
  intro o id
  split <;> rfl

theorem mapExpandTo_appends {view : ViewPtr} {branchId : UInt64}
    (run : mapExpandTo m view branchId = .ok m') : m.overlay.Appends m'.overlay := by
  unfold mapExpandTo at run
  split at run
  · exact Except.ok.inj run ▸ .refl _
  · rcases bind_eq_ok.mp run with ⟨s, expanded, run⟩
    have same : m.overlay.Appends s.1 := .of_eq (viewExpandTo_outQ expanded)
    split at run
    · exact Except.ok.inj run ▸ same
    · exact Except.ok.inj run ▸ same.push (by simp [expandedMessage])

theorem mapBranchUnfold_appends (m : Map) (view : ViewPtr) (branchId : UInt64) :
    m.overlay.Appends (mapBranchUnfold m view branchId).overlay := by
  unfold mapBranchUnfold
  split
  · exact .refl _
  · split
    · exact .refl _
    · exact (Overlay.Appends.of_eq (viewExpand_outQ 2)).push (by simp [expandedMessage])

theorem onView_appends {viewId : UInt32} {f : ViewPtr → Except Fault Map}
    (appends : ∀ view, f view = .ok m' → m.overlay.Appends m'.overlay)
    (run : m.onView viewId f = .ok m') : m.overlay.Appends m'.overlay := by
  unfold Map.onView at run
  split at run
  · exact Except.ok.inj run ▸ .refl _
  · exact appends _ run

theorem call_appends {call : Call} (run : m.call call = .ok m') : m.overlay.Appends m'.overlay := by
  cases call with
  | insert =>
      rcases map_eq_ok.mp run with ⟨⟨_, new⟩, inserted, rfl⟩
      exact insert_appends inserted
  | insertInPath =>
      rcases map_eq_ok.mp run with ⟨⟨_, new⟩, inserted, rfl⟩
      exact insertInPath_appends inserted
  | move =>
      rcases map_eq_ok.mp run with ⟨⟨_, done⟩, moved, rfl⟩
      exact move_appends moved
  | moveToPath => exact moveToPath_appends run
  | delete => exact delete_appends run
  | update => exact Except.ok.inj run ▸ update_appends ..
  | initView => exact mapInitView_appends run
  | destroyView =>
      refine onView_appends (fun view run => ?_) run
      exact Except.ok.inj run ▸ .of_eq viewDestroy_outQ
  | visible =>
      exact onView_appends (fun view run => Except.ok.inj run ▸ setVisible_appends ..) run
  | invisible =>
      exact onView_appends (fun view run => Except.ok.inj run ▸ setVisible_appends ..) run
  | expandTo => exact onView_appends (fun view run => mapExpandTo_appends run) run
  | branchUnfold =>
      exact onView_appends (fun view run => Except.ok.inj run ▸ mapBranchUnfold_appends ..) run

end Operations

end Treedb
