import Treedb.Attachment
import Treedb.Expansion
import Treedb.View.Climb
import Treedb.View.Unborn

/-!
# What a new view shows

`map_init_view` destroys the view with the requested id, makes a new one of the root, expands it to
one requested branch after the other, and marks the way up from each. The result has a closed form: it
depends only on which branches are requested, not on their order or on how often each is named.
-/

namespace Treedb

open Forest Overlay Outcome Treedb.Tree

/-- No vbranch of a branch of the index belongs to a view with the address that the next view gets. -/
def Overlay.NewView (t : Tree) (o : Overlay) : Prop :=
  ∀ b, t.Indexed b → o.mine o.viewNext b = []

/-- The view is consistent, shows exactly the branches in `shown`, and marks those in `visible`. -/
structure Overlay.ShowsExactly (t : Tree) (o : Overlay) (v : ViewPtr)
    (shown visible : BranchPtr → Prop) : Prop where
  consistent : Consistent t o v
  shown_iff : ∀ c, Shown t o v c ↔ shown c
  visible_iff : ∀ {c vb}, StandsFor t o v c vb → ((o.vmem vb).visible = true ↔ visible c)

theorem standsFor_push {t : Tree} {o : Overlay} {v : ViewPtr} {b : BranchPtr} {vb : VbranchPtr}
    (msg : Message) : StandsFor t (o.push msg) v b vb ↔ StandsFor t o v b vb :=
  ⟨fun stands => ⟨stands.indexed, stands.member, stands.view⟩,
    fun stands => ⟨stands.indexed, stands.member, stands.view⟩⟩

/-- Messages do not count. -/
theorem Overlay.ShowsExactly.push {t : Tree} {o : Overlay} {v : ViewPtr}
    {shown visible : BranchPtr → Prop} (exactly : ShowsExactly t o v shown visible)
    (wf : t.WellFormed) (msg : Message) : ShowsExactly t (o.push msg) v shown visible where
  consistent := by
    rcases (consistent_iff wf).mp exactly.consistent with ⟨shows, whole⟩
    exact (consistent_iff wf).mpr ⟨shows.push msg, whole⟩
  shown_iff := fun c => (exists_congr fun _ => standsFor_push msg).trans (exactly.shown_iff c)
  visible_iff := fun stands => exactly.visible_iff ((standsFor_push msg).mp stands)

/-! ## Marking a path -/

section Path

variable {want : Demands} {t : Tree} {o : Overlay} {v : ViewPtr} {a b : BranchPtr}
  {x y : VbranchPtr}

theorem foldl_visible (o : Overlay) (visible : Bool) (list : List VbranchPtr) (y : VbranchPtr) :
    ((list.foldl (fun o vb => o.modify vb fun x => { x with visible := visible }) o).vmem y).visible =
      if y ∈ list then visible else (o.vmem y).visible := by
  induction list generalizing o with
  | nil => rfl
  | cons z list ih =>
      rw [List.foldl_cons, ih, modify_vmem]
      by_cases here : y = z
      · simp [here]
      · simp [here]

/-- The climb over vbranches follows the climb over branches. -/
theorem Shows.ancestors_eq (shows : Shows want t o v {t.branch}) (wf : t.WellFormed) (fuel : ℕ)
    (present : stand t o v b = some x) :
    Forest.ancestors o.vparent fuel x = (Forest.ancestors t.parent fuel b).filterMap (stand t o v) := by
  induction fuel generalizing b x with
  | zero => rfl
  | succ fuel ih =>
      by_cases top : b = t.branch
      · subst top
        rw [shows.root, Option.some.injEq] at present
        simp only [Forest.ancestors, ← present, shows.rootless, wf.root_parent, List.filterMap_nil]
      · rcases shows.shadow.up_eq present top with ⟨p, y, step, above, link⟩
        simp only [Forest.ancestors, link, step, List.filterMap_cons_some above, ih above]

/-- The branches on the way up from a shown one are shown by as many cells. -/
theorem Shows.chain_length_le (shows : Shows want t o v {t.branch}) (wf : t.WellFormed) (fuel : ℕ)
    (present : stand t o v b = some x) : (Forest.chain t.parent fuel b).length ≤ o.vnext := by
  have shown : ∀ c ∈ Forest.chain t.parent fuel b, (stand t o v c).isSome := by
    intro c member
    rw [Option.isSome_iff_ne_none]
    rcases List.mem_cons.mp member with rfl | higher
    · simp [present]
    · exact shows.present_above wf present (strictAnc_of_mem_ancestors higher).anc
  have nodup : (((Forest.chain t.parent fuel b).filterMap (stand t o v)).map
      VbranchPtr.cell).Nodup := by
    apply List.Nodup.map_on
    · intro y memberY z memberZ same
      rcases List.mem_filterMap.mp memberY with ⟨c, _, thereY⟩
      rcases List.mem_filterMap.mp memberZ with ⟨d, _, thereZ⟩
      have views := (view_of_stand thereY).trans (view_of_stand thereZ).symm
      cases y
      cases z
      simp only at same views
      rw [same, views]
    · apply (wf.acyclic.chain_nodup _ b).filterMap
      intro c d y first second
      exact shows.shadow.inj first second
  have sub : ((Forest.chain t.parent fuel b).filterMap (stand t o v)).map VbranchPtr.cell ⊆
      List.range o.vnext := by
    intro cell member
    rcases List.mem_map.mp member with ⟨y, inside, rfl⟩
    rcases List.mem_filterMap.mp inside with ⟨c, _, there⟩
    exact List.mem_range.mpr (shows.cell_lt there)
  have few := (nodup.subperm sub).length_le
  rw [List.length_map, List.length_range, List.filterMap_length_eq_length.mpr shown] at few
  exact few

/-- The vbranches on the way up from `x` are those of the branches on the way up from its branch. -/
theorem Shows.mem_path (shows : Shows want t o v {t.branch}) (wf : t.WellFormed)
    (present : stand t o v b = some x) :
    y ∈ Forest.chain o.vparent o.vnext x ↔ ∃ a, Anc t.parent b a ∧ stand t o v a = some y := by
  rw [Forest.chain, List.mem_cons, shows.ancestors_eq wf _ present, List.mem_filterMap]
  constructor
  · rintro (rfl | ⟨a, member, there⟩)
    · exact ⟨b, anc_refl _ b, present⟩
    · exact ⟨a, (strictAnc_of_mem_ancestors member).anc, there⟩
  · rintro ⟨a, up, there⟩
    rcases anc_iff_eq_or_strictAnc.mp up with rfl | strict
    · rw [present, Option.some.injEq] at there
      exact .inl there.symm
    · rcases mem_ancestors_or_exhausted o.vnext strict with member | long
      · exact .inr ⟨a, member, there⟩
      · have few := shows.chain_length_le wf o.vnext present
        rw [Forest.chain, List.length_cons] at few
        omega

end Path

/-! ## One branch after the other -/

section Requested

variable {t : Tree} {o o' : Overlay} {v : ViewPtr} {b c : BranchPtr} {vb : VbranchPtr}

/-- The view has been expanded to the branches in the list, and marked. -/
structure Overlay.Requested (t : Tree) (v : ViewPtr) (list : List BranchPtr) (o : Overlay) :
    Prop where
  shows : Shows .ordered t o v {t.branch}
  whole : Whole t o v
  shown : ∀ c, stand t o v c ≠ none ↔ c = t.branch ∨ ∃ r ∈ list, t.BesidePath r c
  visible : ∀ {c vb}, stand t o v c = some vb →
    ((o.vmem vb).visible = true ↔ ∃ r ∈ list, Anc t.parent r c)

theorem Overlay.Requested.showsExactly {list : List BranchPtr} (requested : Requested t v list o)
    (wf : t.WellFormed) :
    ShowsExactly t o v (fun c => c = t.branch ∨ ∃ r ∈ list, t.BesidePath r c)
      fun c => ∃ r ∈ list, Anc t.parent r c where
  consistent := (consistent_iff wf).mpr ⟨requested.shows, requested.whole⟩
  shown_iff := fun c => requested.shows.shown_iff.trans (requested.shown c)
  visible_iff := fun stands => requested.visible (requested.shows.standsFor_iff.mp stands)

/-- The branches on the way up from a branch below the root are beside that way. -/
theorem besidePath_of_anc (wf : t.WellFormed) (low : Anc t.parent b t.branch)
    (up : Anc t.parent b c) : c = t.branch ∨ t.BesidePath b c := by
  cases step : t.parent c with
  | some p => exact .inr ⟨c, p, up, step, step⟩
  | none =>
      rcases up.total low with above | below
      · exact .inl ((anc_iff_of_root step).mp above).symm
      · exact .inl ((anc_iff_of_root wf.root_parent).mp below)

/-- One more branch is shown and marked. -/
theorem Overlay.Requested.showBranch {list : List BranchPtr} (requested : Requested t v list o)
    (wf : t.WellFormed) (known : ∀ r ∈ list, Anc t.parent r t.branch)
    (low : Anc t.parent b t.branch) :
    ∃ o', showBranch t v o b = .ok o' ∧ Requested t v (list ++ [b]) o' ∧
      o'.viewIndex = o.viewIndex := by
  rcases requested.shows.expandTo requested.whole wf low with
    ⟨o₁, r, run, shows₁, whole₁, enlarges, shown₁, _⟩
  have there : stand t o₁ v b ≠ none := by
    rw [shown₁, requested.shown]
    rcases besidePath_of_anc wf low (anc_refl _ b) with top | beside
    · exact .inl (.inl top)
    · exact .inr beside
  rcases Option.ne_none_iff_exists'.mp there with ⟨vb, present⟩
  have found := present
  rw [stand_of_indexed (wf.indexed_of_anc low)] at found
  have marks : Marks o₁ (vbranchMakeVisiblePath o₁ vb) := marks_foldl o₁ true _
  refine ⟨vbranchMakeVisiblePath o₁ vb, ?_, ⟨?_, ?_, ?_, ?_⟩, ?_⟩
  · rw [Treedb.showBranch, run]
    simp only [ok_bind, found, pure_eq_ok]
  · exact shows₁.remark marks.alike marks.ups marks.downs
  · intro p c d childC childD
    rw [marks.alike.stand t v]
    exact whole₁ p c d childC childD
  · intro c
    rw [marks.alike.stand t v, shown₁, requested.shown, or_assoc]
    simp [or_and_right, exists_or]
  · intro c y presentC
    rw [marks.alike.stand t v] at presentC
    have onPath : y ∈ Forest.chain o₁.vparent o₁.vnext vb ↔ Anc t.parent b c := by
      rw [shows₁.mem_path wf present]
      constructor
      · rintro ⟨a, up, same⟩
        rw [shows₁.shadow.inj presentC same]
        exact up
      · exact fun up => ⟨c, up, presentC⟩
    have before : (o₁.vmem y).visible = true ↔ ∃ r ∈ list, Anc t.parent r c := by
      rw [enlarges.marks presentC]
      cases old : stand t o v c with
      | some z => exact requested.visible old
      | none =>
          refine ⟨by simp, ?_⟩
          rintro ⟨r, member, up⟩
          refine absurd old ((requested.shown c).mpr ?_)
          exact (besidePath_of_anc wf (known r member) up).imp_right fun beside =>
            ⟨r, member, beside⟩
    rw [vbranchMakeVisiblePath, foldl_visible]
    split
    · rename_i member
      simp only [true_iff]
      exact ⟨b, by simp, onPath.mp member⟩
    · rename_i out
      rw [before]
      rw [onPath] at out
      simp [or_and_right, exists_or, out]
  · rw [marks.alike.viewIndex, enlarges.within.viewIndex]

/-- All requested branches are shown and marked. -/
theorem Overlay.Requested.foldlM_showBranch {list done : List BranchPtr}
    (requested : Requested t v done o) (wf : t.WellFormed)
    (known : ∀ r ∈ done ++ list, Anc t.parent r t.branch) :
    ∃ o', list.foldlM (Treedb.showBranch t v) o = .ok o' ∧ Requested t v (done ++ list) o' ∧
      o'.viewIndex = o.viewIndex := by
  induction list generalizing o done with
  | nil => exact ⟨o, rfl, by simpa using requested, rfl⟩
  | cons b list ih =>
      rcases requested.showBranch wf (fun r member => known r (by simp [member]))
        (known b (by simp)) with ⟨o₁, first, middle, index₁⟩
      rcases ih middle (by simpa using known) with ⟨o', rest, after, index⟩
      refine ⟨o', ?_, by simpa using after, index.trans index₁⟩
      rw [List.foldlM_cons, first]
      exact rest

end Requested

/-! ## The old view and the new one -/

section Init

variable {t : Tree} {o : Overlay} {id : UInt32}

/-- `view_destroy_vbranch` attaches nothing. -/
theorem viewDestroyVbranch_sublist (depth : ℕ) (o : Overlay) (x : VbranchPtr) :
    (∀ b, ((viewDestroyVbranch depth o x).vbranchList b).Sublist (o.vbranchList b)) ∧
      (viewDestroyVbranch depth o x).vnext = o.vnext := by
  induction depth generalizing o x with
  | zero => exact ⟨fun _ => List.Sublist.refl _, rfl⟩
  | succ depth ih =>
      have all : ∀ (list : List VbranchPtr) (o : Overlay),
          (∀ b, ((list.foldl (viewDestroyVbranch depth) o).vbranchList b).Sublist
            (o.vbranchList b)) ∧
          (list.foldl (viewDestroyVbranch depth) o).vnext = o.vnext := by
        intro list
        induction list with
        | nil => exact fun o => ⟨fun _ => List.Sublist.refl _, rfl⟩
        | cons z list ihList =>
            intro o
            rcases ihList (viewDestroyVbranch depth o z) with ⟨rest, next⟩
            exact ⟨fun b => (rest b).trans ((ih o z).1 b), next.trans (ih o z).2⟩
      rcases all (o.vmem x).childList o with ⟨lists, next⟩
      refine ⟨fun b => ?_, next⟩
      refine List.Sublist.trans ?_ (lists b)
      simp only [viewDestroyVbranch, branchDetachVbranch, Function.update_apply]
      split
      · rename_i here
        rw [here]
        exact (List.take_sublist _ _).trans List.filter_sublist
      · exact List.Sublist.refl _

/-- The vbranches of the branches have addresses that were handed out. -/
def Overlay.CellsMade (o : Overlay) : Prop :=
  ∀ b, ∀ vb ∈ o.vbranchList b, vb.cell < o.vnext

theorem Overlay.CellsMade.dropView (made : o.CellsMade) (id : UInt32) :
    (dropView o id).CellsMade := by
  unfold Treedb.dropView
  split
  · rename_i v _
    rcases viewDestroyVbranch_sublist (o.vnext + 1) o (o.views v).vbranch with ⟨lists, next⟩
    intro b vb member
    have before := made b vb ((lists b).subset member)
    rw [← next] at before
    exact before
  · exact made

/-- A new view shows what is requested. -/
theorem Overlay.NewView.initRequested (new : NewView t o) (wf : t.WellFormed)
    {requested : List BranchPtr} (known : ∀ r ∈ requested, Anc t.parent r t.branch) :
    ∃ o' v, initRequested t o id requested = .ok (o', v) ∧ viewIndexGet o' id = some v ∧
      ShowsExactly t o' v (fun c => c = t.branch ∨ ∃ r ∈ requested, t.BesidePath r c)
        fun c => ∃ r ∈ requested, Anc t.parent r c := by
  rcases createRootView_created .ordered wf (fun {b} => new b) id false with
    ⟨o₁, made, created⟩
  have start : Requested t o.viewNext [] o₁ := by
    refine ⟨created.shows, whole_of_root wf created.only, ?_, ?_⟩
    · intro c
      refine ⟨fun there => .inl (created.only c there), ?_⟩
      rintro (rfl | ⟨r, member, _⟩)
      · simp [created.shows.root]
      · simp at member
    · intro c vb present
      have top := created.only c (by simp [present])
      rw [top, created.shows.root, Option.some.injEq] at present
      rw [← present, created.marked]
      simp
  rcases start.foldlM_showBranch wf (by simpa using known) with ⟨o', shown, after, index⟩
  refine ⟨o', o.viewNext, ?_, ?_, after.showsExactly wf⟩
  · simp only [Treedb.initRequested, made, shown, ok_bind, pure_eq_ok]
  · rw [viewIndexGet, index]
    exact (created.index id).trans (if_pos rfl)

/-- Without a request the view shows the root and its children. -/
theorem Overlay.NewView.initDefault (new : NewView t o) (wf : t.WellFormed) :
    ∃ o' v, initDefault t o id = .ok (o', v) ∧
      (∀ k, viewIndexGet o' k = if k = id then some v else viewIndexGet o k) ∧
      ShowsExactly t o' v (fun c => c = t.branch ∨ t.parent c = some t.branch) fun _ => True := by
  rcases createRootView_created .ordered wf (fun {b} => new b) id true with
    ⟨o₁, made, created⟩
  have shows₁ := created.shows
  have whole₁ := whole_of_root wf created.only
  have root := shows₁.root
  rw [stand_of_indexed wf.root_indexed] at root
  have low := anc_refl t.parent t.branch
  rcases viewExpandTo_total root low true with ⟨⟨o₂, r⟩, expanded⟩
  rcases shows₁.viewExpandTo wf (searched_of_anc wf low) wf.root_indexed (whole₁.clear _)
    (fun _ _ _ _ child => hidden_of_root wf created.only child) expanded with
    ⟨shows₂, enlarges, shown, _⟩
  have shown₂ : ∀ c, stand t o₂ o.viewNext c ≠ none ↔
      c = t.branch ∨ t.parent c = some t.branch := by
    intro c
    rw [shown c]
    constructor
    · rintro (there | ⟨a, p, up, _, step, _⟩ | ⟨_, _, child⟩)
      · exact .inl (created.only c there)
      · rw [(anc_iff_of_root wf.root_parent).mp up, wf.root_parent] at step
        simp at step
      · exact .inr child
    · rintro (rfl | child)
      · exact .inl (by simp [shows₁.root])
      · exact .inr (.inr ⟨rfl, by simp [shows₂.root], child⟩)
  let o' := ((o₂.vmem (o₂.views o.viewNext).vbranch).childList.foldl
    (fun o vb => o.modify vb fun x => { x with visible := true }) o₂)
  have marks : Marks o₂ o' := marks_foldl o₂ true _
  have stands := marks.alike.stand t o.viewNext
  have shows' : Shows .ordered t o' o.viewNext {t.branch} :=
    shows₂.remark marks.alike marks.ups marks.downs
  refine ⟨o', o.viewNext, ?_, ?_, ⟨(consistent_iff wf).mpr ⟨shows', ?_⟩, ?_, ?_⟩⟩
  · simp only [Treedb.initDefault, made, expanded, ok_bind, pure_eq_ok]
    rfl
  · intro k
    rw [viewIndexGet, marks.alike.viewIndex, enlarges.within.viewIndex]
    exact created.index k
  · intro p c d childC childD
    rw [stands, shown₂, shown₂]
    rintro (rfl | child)
    · simp [wf.root_parent] at childC
    · rw [childC] at child
      exact .inr (childD.trans child)
  · intro c
    rw [shows'.shown_iff, stands, shown₂]
  · intro c vb standsC
    have present := shows'.standsFor_iff.mp standsC
    rw [stands] at present
    simp only [iff_true]
    rw [foldl_visible]
    split
    · rfl
    · rename_i unlisted
      rcases (shown₂ c).mp (by simp [present]) with rfl | child
      · rw [enlarges.marks present, shows₁.root]
        exact created.marked
      · refine absurd ((shows₂.shadow.mem_down shows₂.root).mpr ⟨c, child, ?_, present⟩) unlisted
        exact wf.ne_root child

theorem mapInitView_of_initView {m : Map} {v : ViewPtr} {viewId : UInt32} {branchId docId : UInt64}
    {query : CString} {endpointIds rows : List UInt64} {o' : Overlay} (reqId : UInt64)
    (made : Treedb.initView m.tree m.overlay viewId branchId query docId endpointIds rows =
      .ok (o', v)) :
    ∃ msg, mapInitView m viewId reqId branchId query docId endpointIds rows =
      .ok { m with overlay := o'.push msg } := by
  rw [mapInitView, made]
  exact ⟨_, rfl⟩

/-- The first view of a map is consistent if it is made for no request. -/
theorem Overlay.NoViews.initView {m : Map} (none' : m.overlay.NoViews) (wf : m.tree.WellFormed)
    (viewId : UInt32) (reqId : UInt64) :
    ∃ m' v, mapInitView m viewId reqId 0 [] 0 [] [] = .ok m' ∧ m'.tree = m.tree ∧
      (∀ k, viewIndexGet m'.overlay k = if k = viewId then some v else none) ∧
      Consistent m'.tree m'.overlay v ∧ Sound .ordered m'.tree m'.overlay := by
  have new : NewView m.tree m.overlay := fun b _ => mine_eq_nil (none'.lists b)
  have dropped : dropView m.overlay viewId = m.overlay := by
    rw [Treedb.dropView, viewIndexGet, none'.index]
  rcases new.initDefault wf with ⟨o', v, made, index, exactly⟩
  have run : Treedb.initView m.tree m.overlay viewId 0 [] 0 [] [] = .ok (o', v) := by
    rw [Treedb.initView, if_neg (by decide), dropped, made]
  have sound : Sound .ordered m.tree m.overlay := none'.sound
  rcases mapInitView_of_initView reqId run with ⟨msg, sent⟩
  refine ⟨_, v, sent, rfl, ?_, (exactly.push wf msg).consistent,
    (sound.initView wf run).1.push msg⟩
  intro k
  have before : viewIndexGet m.overlay k = none := none'.index k
  rw [← before]
  exact index k

end Init

/-- The request asks for more than a view of the root and its children. -/
def Requests (branchId : UInt64) (query : CString) (docId : UInt64) (endpointIds : List UInt64) :
    Prop :=
  query ≠ [] ∨ docId ≠ 0 ∨ endpointIds ≠ [] ∨ branchId ≠ 0

/--
A view that is made for a request shows the root and all that is beside the way up from a requested
branch, and marks the ways up; a view that is made for no request shows the root and its children and
marks them all.
-/
def Map.InitShows (m : Map) (viewId : UInt32) (reqId branchId : UInt64) (query : CString)
    (docId : UInt64) (endpointIds rows : List UInt64) : Prop :=
  ∃ m' v, mapInitView m viewId reqId branchId query docId endpointIds rows = .ok m' ∧
    m'.tree = m.tree ∧ viewIndexGet m'.overlay viewId = some v ∧
    (Requests branchId query docId endpointIds →
      let requested := requestedBranches m.tree branchId query docId endpointIds rows
      ShowsExactly m.tree m'.overlay v
        (fun c => c = m.tree.branch ∨ ∃ r ∈ requested, m.tree.BesidePath r c)
        fun c => ∃ r ∈ requested, Anc m.tree.parent r c) ∧
    (¬Requests branchId query docId endpointIds →
      ShowsExactly m.tree m'.overlay v
        (fun c => c = m.tree.branch ∨ m.tree.parent c = some m.tree.branch) fun _ => True)

section Address

variable {m m' : Map} {t : Tree} {o o₀ o' : Overlay} {v : ViewPtr} {viewId : UInt32}
  {reqId branchId docId : UInt64} {query : CString} {endpointIds rows : List UInt64} {n : ℕ}

/-- At an address that is not in use the view is made as it shall be. -/
theorem Map.initShows_of_newView (wf : m.tree.WellFormed) (rooted : m.tree.Rooted)
    (new : NewView m.tree (dropView m.overlay viewId)) (reqId branchId : UInt64) (query : CString)
    (docId : UInt64) (endpointIds rows : List UInt64) :
    m.InitShows viewId reqId branchId query docId endpointIds rows := by
  by_cases asks : Requests branchId query docId endpointIds
  · have known : ∀ r ∈ requestedBranches m.tree branchId query docId endpointIds rows,
        Anc m.tree.parent r m.tree.branch := fun r member =>
      rooted r (requestedBranches_indexed wf member)
    rcases new.initRequested wf known with ⟨o', v, made, found, exactly⟩
    rcases mapInitView_of_initView reqId ((if_pos asks).trans made) with ⟨msg, run⟩
    exact ⟨_, v, run, rfl, found, fun _ => exactly.push wf msg, fun no => absurd asks no⟩
  · rcases new.initDefault wf with ⟨o', v, made, index, exactly⟩
    rcases mapInitView_of_initView reqId ((if_neg asks).trans made) with ⟨msg, run⟩
    exact ⟨_, v, run, rfl, (index viewId).trans (if_pos rfl), fun yes => absurd yes asks,
      fun _ => exactly.push wf msg⟩

/-! What the making of a view leaves as it is, whatever is attached to the branches. -/

theorem Overlay.Climbs.marks (climbs : Climbs v n o₀ o) (marks : Marks o o') : Climbs v n o₀ o' where
  attaches := fun b => marks.alike.vbranchList ▸ climbs.attaches b
  vnext := climbs.vnext.trans marks.alike.vnext.ge
  view_id := marks.alike.views ▸ climbs.view_id
  view_root := marks.alike.views ▸ climbs.view_root
  viewIndex := marks.alike.viewIndex.trans climbs.viewIndex
  branch := fun x early => (marks.alike.branch x).trans (climbs.branch x early)
  added := by
    rw [marks.alike.vbranchList, marks.alike.vnext]
    exact climbs.added
  up := fun x early => (marks.ups x).trans (climbs.up x early)
  down := by
    intro x early
    rw [marks.downs]
    exact climbs.down x early
  short := by
    intro x own made early
    rw [marks.downs]
    exact climbs.short x own made (marks.alike.vnext ▸ early)
  late := by
    intro x own made early
    rw [marks.downs]
    exact (climbs.late x own made (marks.alike.vnext ▸ early)).mono marks.alike.vnext.ge

theorem Overlay.Climbs.push (climbs : Climbs v n o₀ o) (msg : Message) : Climbs v n o₀ (o.push msg) :=
  { climbs with }

theorem Overlay.Climbs.showBranch {b : BranchPtr} (climbs : Climbs v n o₀ o) (wf : t.WellFormed)
    (room : ∀ p, (t.children p).length ≤ n) (run : showBranch t v o b = .ok o') :
    Climbs v n o₀ o' := by
  rcases bind_eq_ok.mp run with ⟨⟨o₁, r⟩, expanded, run⟩
  have path := climbs.viewExpandTo wf room expanded
  dsimp only at run
  split at run
  · simp at run
  · rw [← Except.ok.inj run]
    exact path.marks (marks_foldl o₁ true _)

/-- The new view is made with vbranches of its own. -/
theorem initView_climbs (wf : t.WellFormed)
    (run : initView t o viewId branchId query docId endpointIds rows = .ok (o', v)) :
    v = (dropView o viewId).viewNext ∧
      Climbs v 65535 (viewCreate (dropView o viewId) viewId ⟨v, (dropView o viewId).vnext⟩).1 o' := by
  generalize dropped : dropView o viewId = o₁
  have created : ∀ visible, Climbs o₁.viewNext 65535
      (viewCreate o₁ viewId ⟨o₁.viewNext, o₁.vnext⟩).1 (createRootView t o₁ viewId visible).1 :=
    fun visible => (Climbs.refl _ _ _).addVbranch t { branch := t.branch, visible := visible }
      (Nat.zero_le _) (by simp [Late])
  unfold initView at run
  rw [dropped] at run
  split at run
  · rcases bind_eq_ok.mp run with ⟨o₂, shown, run⟩
    have all := foldlM_invariant (Climbs o₁.viewNext 65535
      (viewCreate o₁ viewId ⟨o₁.viewNext, o₁.vnext⟩).1) (fun _ _ _ _ before step =>
        before.showBranch wf wf.children_length_le step) (created false) shown
    rcases Prod.mk.inj (Except.ok.inj run) with ⟨rfl, rfl⟩
    exact ⟨rfl, all⟩
  · rcases bind_eq_ok.mp run with ⟨⟨o₂, r⟩, expanded, run⟩
    have all := (created true).viewExpandTo wf wf.children_length_le expanded
    rcases Prod.mk.inj (Except.ok.inj run) with ⟨rfl, rfl⟩
    exact ⟨rfl, all.marks (marks_foldl _ true _)⟩

/-- A vbranch that was attached before is not reached from the root of the new view. -/
theorem Overlay.Climbs.newView (made : o.CellsMade)
    (climbs : Climbs o.viewNext n (viewCreate o viewId ⟨o.viewNext, o.vnext⟩).1 o')
    (consistent : Consistent t o' o.viewNext) : NewView t o := by
  intro b indexed
  apply List.eq_nil_iff_forall_not_mem.mpr
  intro x member
  rcases mem_mine.mp member with ⟨attached, own⟩
  have root : (o'.views o.viewNext).vbranch = ⟨o.viewNext, o.vnext⟩ := by
    rw [climbs.view_root, viewCreate_view]
  have rootEarly : o.vnext < o'.vnext := by
    have there := consistent.root.member
    rw [root] at there
    rcases climbs.added _ _ there with before | ⟨_, _, early⟩
    · exact absurd (made _ _ before) (Nat.lt_irrefl _)
    · exact early
  have late : ∀ y, o'.Reaches o.viewNext y →
      y.view = o.viewNext ∧ o.vnext ≤ y.cell ∧ y.cell < o'.vnext := by
    intro y reached
    induction reached with
    | refl =>
        rw [root]
        exact ⟨rfl, Nat.le_refl _, rootEarly⟩
    | tail _ below ih => exact climbs.late _ ih.1 ih.2.1 ih.2.2 _ below
  have stands : StandsFor t o' o.viewNext b x := by
    refine ⟨indexed, ?_, own⟩
    exact (climbs.attaches b).subset attached
  exact absurd (made b x attached)
    (Nat.not_lt.mpr (late x ((consistent.attached_iff x).mp ⟨b, stands⟩)).2.1)

theorem Map.InitShows.newView (wf : m.tree.WellFormed) (made : m.overlay.CellsMade)
    (shows : m.InitShows viewId reqId branchId query docId endpointIds rows) :
    NewView m.tree (dropView m.overlay viewId) := by
  rcases shows with ⟨m', v, run, _, found, requested, default⟩
  have consistent : Consistent m.tree m'.overlay v := by
    by_cases asks : Requests branchId query docId endpointIds
    · exact (requested asks).consistent
    · exact (default asks).consistent
  rcases bind_eq_ok.mp run with ⟨⟨o', w⟩, created, run⟩
  rcases initView_climbs wf created with ⟨rfl, climbs⟩
  have same := Except.ok.inj run
  have index : v = (dropView m.overlay viewId).viewNext := by
    rw [← same, viewIndexGet] at found
    change o'.viewIndex viewId = some v at found
    rw [climbs.viewIndex] at found
    have fresh := viewCreate_index (dropView m.overlay viewId) viewId viewId
      ⟨(dropView m.overlay viewId).viewNext, (dropView m.overlay viewId).vnext⟩
    rw [if_pos rfl, viewIndexGet, found, Option.some.injEq] at fresh
    exact fresh
  rw [← same, index] at consistent
  exact (climbs.push _).newView (made.dropView viewId) consistent

/--
After a run that spares the views, a new view shares its address with no vbranch, also if it gets the
address of a view that was destroyed.
-/
theorem run_newView {m : Map} (wf : m.tree.WellFormed) (rooted : m.tree.Rooted)
    (none' : m.overlay.NoViews) (calls : List Call)
    (spares : m.Along (fun m call => call.SparesViews True m) calls) {m' : Map}
    (run : m.run calls = .ok m') (viewId : UInt32) {a : ViewPtr}
    (unused : ∀ k, viewIndexGet (dropView m'.overlay viewId) k ≠ some a) :
    NewView m'.tree { dropView m'.overlay viewId with viewNext := a } := by
  have sound := ((run_sound wf rooted none' spares run).dropView (run_wellFormed wf run) viewId).1
  intro b indexed
  apply List.eq_nil_iff_forall_not_mem.mpr
  intro vb member
  rcases mem_mine.mp member with ⟨attached, own⟩
  rcases sound.attached indexed attached with ⟨k, found⟩
  have same : vb.view = a := own
  rw [same] at found
  exact unused k found

end Address

end Treedb
