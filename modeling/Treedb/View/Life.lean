import Treedb.View.Expand

/-!
# The life of views

`Sound` is the invariant of all views of a map together: every registered view is a shadow of the
tree, and every vbranch attached to a branch of the index belongs to a registered view. Views are
made by `map_init_view`, which first destroys a view with the same id. `view_destroy` detaches the
vbranches that it can reach from the root of the view, which are all that the view has.
-/

namespace Treedb

open Forest Overlay Outcome

/-- The views of a map agree with its tree and with their index. -/
structure Sound (want : Demands) (t : Tree) (o : Overlay) : Prop where
  registered : ∀ {id v}, viewIndexGet o id = some v →
    (o.views v).id = id ∧ v < o.viewNext ∧ Shows want t o v {t.branch}
  attached : ∀ {b vb}, t.Indexed b → vb ∈ o.vbranchList b → ∃ id, viewIndexGet o id = some vb.view
  fresh : ∀ b, t.next ≤ b → o.vbranchList b = []
  sealed : Sealed t o

namespace Sound

variable {want : Demands} {t : Tree} {o o' : Overlay} {v : ViewPtr} {id : UInt32} {b : BranchPtr}
  {vb : VbranchPtr}

theorem shows (sound : Sound want t o) (found : viewIndexGet o id = some v) :
    Shows want t o v {t.branch} :=
  (sound.registered found).2.2

/-- A vbranch of a branch of the index is shown by its view. -/
theorem stand_of_mem (sound : Sound want t o) (indexed : t.Indexed b)
    (member : vb ∈ o.vbranchList b) : stand t o vb.view b = some vb := by
  rcases sound.attached indexed member with ⟨id, found⟩
  exact (sound.shows found).attached indexed member rfl

/-- A change within one view is judged by what the view shows afterwards. -/
theorem within (sound : Sound want t o) (wf : t.WellFormed) (found : viewIndexGet o id = some v)
    (within : Within t v o o') (after : Shows want t o' v {t.branch}) : Sound want t o' where
  registered := by
    intro id' w found'
    rw [viewIndexGet, within.viewIndex] at found'
    rcases sound.registered found' with ⟨named, allocated, before⟩
    by_cases same : w = v
    · subst same
      exact ⟨within.view_id.trans named, within.viewNext ▸ allocated, after⟩
    · rw [within.views w same, within.viewNext]
      exact ⟨named, allocated, before.keeps (within.keeps same)⟩
  attached := by
    intro b vb indexed member
    simp only [viewIndexGet, within.viewIndex]
    by_cases same : vb.view = v
    · rw [same]
      exact ⟨id, found⟩
    · have mine : vb ∈ o'.mine vb.view b := mem_mine.mpr ⟨member, rfl⟩
      rw [within.mine vb.view b same] at mine
      exact sound.attached indexed (mem_mine.mp mine).1
  fresh := by
    intro b beyond
    rw [within.gone b]
    · exact sound.fresh b beyond
    · intro indexed
      exact Nat.lt_irrefl _ ((wf.indexed_lt indexed).trans_le beyond)
  sealed := sound.sealed.within within

/-- Marks and messages do not count. -/
theorem remark (sound : Sound want t o) (alike : Alike o o')
    (ups : ∀ vb, o'.vparent vb = o.vparent vb) (downs : ∀ vb, o'.vchildren vb = o.vchildren vb) :
    Sound want t o' where
  registered := by
    intro id w found
    rw [viewIndexGet, alike.viewIndex] at found
    rcases sound.registered found with ⟨named, allocated, before⟩
    rw [alike.views, alike.viewNext]
    exact ⟨named, allocated, before.remark alike ups downs⟩
  attached := by
    intro b vb indexed member
    rw [alike.vbranchList] at member
    simp only [viewIndexGet, alike.viewIndex]
    exact sound.attached indexed member
  fresh := by
    intro b beyond
    rw [alike.vbranchList]
    exact sound.fresh b beyond
  sealed := by
    intro b out inner
    rw [alike.vbranchList]
    exact sound.sealed b out inner

theorem push (sound : Sound want t o) (msg : Message) : Sound want t (o.push msg) :=
  sound.remark (relinks_push o 0 msg).toAlike (fun _ => rfl) fun _ => rfl

end Sound

/-! ## Marks -/

section Marks

variable {o o' o'' : Overlay}

/-- At most the marks of vbranches changed. -/
structure Overlay.Marks (o o' : Overlay) : Prop where
  alike : Alike o o'
  ups : ∀ vb, o'.vparent vb = o.vparent vb
  downs : ∀ vb, o'.vchildren vb = o.vchildren vb
  outQ : o'.outQ = o.outQ

theorem marks_foldl (o : Overlay) (visible : Bool) (list : List VbranchPtr) :
    Marks o (list.foldl (fun o vb => o.modify vb fun x => { x with visible := visible }) o) := by
  induction list generalizing o with
  | nil => exact ⟨(Relinks.refl 0 o).toAlike, fun _ => rfl, fun _ => rfl, rfl⟩
  | cons vb list ih =>
      rw [List.foldl_cons]
      have rest := ih (o.modify vb fun x => { x with visible := visible })
      have first : Relinks vb.view o (o.modify vb fun x => { x with visible := visible }) :=
        relinks_modify o rfl rfl
      have link : ∀ y, (o.modify vb fun x => { x with visible := visible }).vparent y = o.vparent y ∧
          (o.modify vb fun x => { x with visible := visible }).vchildren y = o.vchildren y := by
        intro y
        simp only [vparent, vchildren, modify_vmem]
        split <;> exact ⟨rfl, rfl⟩
      refine ⟨⟨?_, ?_, ?_, ?_, ?_, ?_⟩, ?_, ?_, ?_⟩
      · exact fun y => (rest.alike.branch y).trans (first.branch y)
      · exact rest.alike.vnext.trans first.vnext
      · exact rest.alike.views.trans first.views
      · exact rest.alike.viewNext.trans first.viewNext
      · exact rest.alike.viewIndex.trans first.viewIndex
      · exact rest.alike.vbranchList.trans first.vbranchList
      · exact fun y => (rest.ups y).trans (link y).1
      · exact fun y => (rest.downs y).trans (link y).2
      · exact rest.outQ

theorem Sound.marks {want : Demands} {t : Tree} (sound : Sound want t o) (marks : Marks o o') :
    Sound want t o' :=
  sound.remark marks.alike marks.ups marks.downs

end Marks

/-! ## Destroying a view -/

section Destroy

variable {want : Demands} {t : Tree} {o : Overlay} {v : ViewPtr} {id : UInt32} {x : VbranchPtr}

/-- The vbranches `gone` are detached from the branches they stand for. -/
def Overlay.without (o : Overlay) (gone : List VbranchPtr) : Overlay :=
  { o with
    vbranchList := fun b =>
      (o.vbranchList b).filter fun y => decide (y ∉ gone ∨ (o.vmem y).branch ≠ b) }

theorem Overlay.without_without (o : Overlay) (gone gone' : List VbranchPtr) :
    (o.without gone).without gone' = o.without (gone ++ gone') := by
  simp only [without, List.filter_filter, Overlay.mk.injEq, true_and, and_true]
  funext b
  apply List.filter_congr
  intro y _
  by_cases here : (o.vmem y).branch = b
  · simp [here, Bool.and_comm]
  · simp [here]

theorem Overlay.without_congr (o : Overlay) {gone gone' : List VbranchPtr}
    (same : ∀ y, y ∈ gone ↔ y ∈ gone') : o.without gone = o.without gone' := by
  simp only [without, same]

theorem branchDetachVbranch_eq (once : (o.vbranchList (o.vmem x).branch).count x = 1) :
    branchDetachVbranch o x = o.without [x] := by
  simp only [branchDetachVbranch, without, Overlay.mk.injEq, true_and, and_true]
  funext b
  by_cases here : b = (o.vmem x).branch
  · subst here
    have length : ((o.vbranchList (o.vmem x).branch).filter fun y => decide (y ≠ x)).length =
        (o.vbranchList (o.vmem x).branch).length - 1 := by
      have parts := List.length_eq_countP_add_countP (fun y => decide (y ≠ x))
        (l := o.vbranchList (o.vmem x).branch)
      have single : (o.vbranchList (o.vmem x).branch).countP
          (fun y => decide ¬decide (y ≠ x) = true) = 1 := by
        rw [← once, List.count]
        apply List.countP_congr
        intro y _
        simp
      rw [← List.countP_eq_length_filter]
      omega
    rw [Function.update_self, ← length, List.take_length]
    apply List.filter_congr
    intro y _
    by_cases same : y = x
    · simp [same]
    · simp [same]
  · rw [Function.update_of_ne here]
    symm
    apply List.filter_eq_self.mpr
    intro y _
    by_cases same : y = x
    · subst same
      simp [Ne.symm here]
    · simp [same]

/-- Detaching others does not change how often a vbranch is attached. -/
theorem count_without {gone : List VbranchPtr} {y : VbranchPtr} (other : y ∉ gone)
    (b : BranchPtr) : ((o.without gone).vbranchList b).count y = (o.vbranchList b).count y := by
  simp [without, List.count_filter, other]

/-- The recursion of `view_destroy_vbranch` detaches the vbranches it meets. -/
theorem viewDestroyVbranch_eq (depth : ℕ) (o : Overlay) (x : VbranchPtr)
    (nodup : (preorder o.vchildren depth x).Nodup)
    (once : ∀ y ∈ preorder o.vchildren depth x, (o.vbranchList (o.vmem y).branch).count y = 1) :
    viewDestroyVbranch depth o x = o.without (preorder o.vchildren depth x) := by
  induction depth generalizing o x with
  | zero => simp [viewDestroyVbranch, preorder, without]
  | succ depth ih =>
      have all : ∀ (list : List VbranchPtr) (o : Overlay),
          (list.flatMap (preorder o.vchildren depth)).Nodup →
          (∀ y ∈ list.flatMap (preorder o.vchildren depth),
            (o.vbranchList (o.vmem y).branch).count y = 1) →
          list.foldl (viewDestroyVbranch depth) o =
            o.without (list.flatMap (preorder o.vchildren depth)) := by
        intro list
        induction list with
        | nil => simp [without]
        | cons z list ihList =>
            intro o nodup once
            rw [List.flatMap_cons, List.nodup_append] at nodup
            rcases nodup with ⟨nodupZ, nodupRest, apart⟩
            rw [List.foldl_cons, ih o z nodupZ fun y member => once y (by simp [member])]
            have rest := ihList (o.without (preorder o.vchildren depth z)) nodupRest (by
              intro y member
              have other : y ∉ preorder o.vchildren depth z :=
                fun inside => apart y inside y member rfl
              change ((o.without _).vbranchList (o.vmem y).branch).count y = 1
              rw [count_without other]
              exact once y (List.mem_append_right _ member))
            rw [rest, without_without, List.flatMap_cons]
            rfl
      rw [preorder, List.nodup_cons] at nodup
      rw [viewDestroyVbranch]
      have children := all (o.vmem x).childList o nodup.2
        fun y member => once y (List.mem_cons_of_mem _ member)
      rw [children, branchDetachVbranch_eq, without_without]
      · apply without_congr
        intro y
        rw [preorder, List.mem_append, List.mem_singleton, List.mem_cons, or_comm]
        rfl
      · refine (count_without ?_ (o.vmem x).branch).trans ?_
        · exact nodup.1
        · exact once x List.mem_cons_self

theorem Shows.count_attached {tops : Set BranchPtr} {b : BranchPtr} (shows : Shows want t o v tops)
    (present : stand t o v b = some x) : (o.vbranchList (o.vmem x).branch).count x = 1 := by
  rw [shows.branch_eq present]
  have mine := shows.mine_eq (stand_eq_some.mp present).1
  rw [present] at mine
  have counted : (o.mine v b).count x = (o.vbranchList b).count x := by
    simp [Overlay.mine, List.count_filter, view_of_stand present]
  rw [← counted, mine]
  simp

/-- The vbranches of a view, each once. -/
theorem Shows.preorder_root (shows : Shows want t o v {t.branch}) (wf : t.WellFormed) {depth : ℕ}
    (enough : o.vnext < depth) :
    (preorder o.vchildren depth (o.views v).vbranch).Nodup ∧
      ∀ y, y ∈ preorder o.vchildren depth (o.views v).vbranch ↔ ∃ b, stand t o v b = some y := by
  apply shows.shadow.preorder_top wf.acyclic shows.root shows.rootless
    ((Finset.range o.vnext).image fun cell => ⟨v, cell⟩)
  · intro b y present
    rw [Finset.mem_image]
    refine ⟨y.cell, Finset.mem_range.mpr (shows.cell_lt present), ?_⟩
    rw [← view_of_stand present]
  · exact (Finset.card_image_le.trans_eq (Finset.card_range _)).trans_lt enough

/-- `view_destroy` detaches what the view shows and takes the view out of the index. -/
theorem Sound.viewDestroy_eq (sound : Sound want t o) (wf : t.WellFormed)
    (found : viewIndexGet o id = some v) :
    Treedb.viewDestroy o v = viewIndexRemove
      (o.without (preorder o.vchildren (o.vnext + 1) (o.views v).vbranch)) id := by
  rcases sound.registered found with ⟨named, _, shows⟩
  rcases shows.preorder_root wf (Nat.lt_succ_self o.vnext) with ⟨nodup, met⟩
  have destroyed := viewDestroyVbranch_eq (o.vnext + 1) o (o.views v).vbranch nodup (by
    intro y member
    rcases (met y).mp member with ⟨b, present⟩
    exact shows.count_attached present)
  rw [Treedb.viewDestroy, destroyed, ← named]
  rfl

theorem Sound.viewDestroy_index (sound : Sound want t o) (wf : t.WellFormed)
    (found : viewIndexGet o id = some v) (id' : UInt32) :
    viewIndexGet (Treedb.viewDestroy o v) id' = if id' = id then none else viewIndexGet o id' := by
  rw [sound.viewDestroy_eq wf found]
  exact Function.update_apply ..

/-- The other views are as before. -/
theorem Sound.viewDestroy_beside (sound : Sound want t o) (wf : t.WellFormed)
    (found : viewIndexGet o id = some v) : Beside v o (Treedb.viewDestroy o v) := by
  rcases (sound.shows found).preorder_root wf (Nat.lt_succ_self o.vnext) with ⟨_, met⟩
  rw [sound.viewDestroy_eq wf found]
  refine ⟨fun _ _ => rfl, le_refl _, fun _ _ => rfl, ?_⟩
  intro w b other
  simp only [mine, viewIndexRemove, without, List.filter_filter]
  apply List.filter_congr
  intro y _
  by_cases own : y.view = w
  · have kept : y ∉ preorder o.vchildren (o.vnext + 1) (o.views v).vbranch := by
      intro member
      rcases (met y).mp member with ⟨c, present⟩
      exact other (own.symm.trans (view_of_stand present))
    simp [own, kept]
  · simp [own]

/-- After `view_destroy` nothing of the view is left at the branches of the index. -/
theorem Sound.viewDestroy (sound : Sound want t o) (wf : t.WellFormed)
    (found : viewIndexGet o id = some v) :
    Sound want t (viewDestroy o v) ∧ viewIndexGet (Treedb.viewDestroy o v) id = none := by
  rcases sound.registered found with ⟨named, _, shows⟩
  rcases shows.preorder_root wf (Nat.lt_succ_self o.vnext) with ⟨_, met⟩
  have result := sound.viewDestroy_eq wf found
  have index := sound.viewDestroy_index wf found
  have beside := sound.viewDestroy_beside wf found
  refine ⟨⟨?_, ?_, ?_, ?_⟩, by rw [index, if_pos rfl]⟩
  · intro id' w found'
    rw [index] at found'
    split at found'
    · simp at found'
    · rename_i otherId
      rcases sound.registered found' with ⟨named', allocated, before⟩
      have other : w ≠ v := by
        rintro rfl
        exact otherId (named'.symm.trans named)
      rw [beside.views w other]
      refine ⟨named', ?_, before.keeps (beside.keeps other)⟩
      rw [result]
      exact allocated
  · intro b vb indexed member
    rw [result] at member
    simp only [viewIndexRemove, without, List.mem_filter, decide_eq_true_eq] at member
    rcases sound.attached indexed member.1 with ⟨id', found'⟩
    refine ⟨id', ?_⟩
    rw [index, if_neg, found']
    rintro rfl
    rw [found, Option.some.injEq] at found'
    have present := shows.attached indexed member.1 found'.symm
    rcases member.2 with unmet | elsewhere
    · exact unmet ((met vb).mpr ⟨b, present⟩)
    · exact elsewhere (shows.branch_eq present)
  · intro b beyond
    rw [result]
    simp [viewIndexRemove, without, sound.fresh b beyond]
  · intro b out inner
    rw [result]
    simp [viewIndexRemove, without, sound.sealed b out inner]

theorem Sound.dropView (sound : Sound want t o) (wf : t.WellFormed) (id : UInt32) :
    Sound want t (dropView o id) ∧ viewIndexGet (Treedb.dropView o id) id = none := by
  unfold Treedb.dropView
  split
  · rename_i v found
    exact sound.viewDestroy wf found
  · rename_i missing
    exact ⟨sound, missing⟩

end Destroy

/-! ## Creating a view -/

section Create

variable {want : Demands} {t : Tree} {o : Overlay} {id : UInt32}

theorem viewCreate_index (o : Overlay) (id id' : UInt32) (x : VbranchPtr) :
    viewIndexGet (viewCreate o id x).1 id' =
      if id' = id then some o.viewNext else viewIndexGet o id' := by
  simp [viewIndexGet, viewCreate, viewIndexPut, Function.update_apply]

theorem viewCreate_view (o : Overlay) (id : UInt32) (x : VbranchPtr) :
    (viewCreate o id x).1.views o.viewNext =
      { id := id, vbranch := x, vbranchIndex := fun _ => none } := by
  simp [viewCreate, viewIndexPut]

theorem viewCreate_beside (o : Overlay) (id : UInt32) (x : VbranchPtr) :
    Beside o.viewNext o (viewCreate o id x).1 where
  vmem := fun _ _ => rfl
  vnext := le_refl _
  views := fun _ other => Function.update_of_ne other _ _
  mine := fun _ _ _ => rfl

/-- The address of a new view is not in use. -/
theorem Sound.mine_next (sound : Sound want t o) {b : BranchPtr} (indexed : t.Indexed b) :
    o.mine o.viewNext b = [] := by
  apply List.eq_nil_iff_forall_not_mem.mpr
  intro vb member
  rcases mem_mine.mp member with ⟨attached, own⟩
  rcases sound.attached indexed attached with ⟨id, found⟩
  exact Nat.lt_irrefl _ (own ▸ (sound.registered found).2.1)

/-- A new view `v` was made, which shows the root and nothing else. -/
structure Overlay.Created (want : Demands) (t : Tree) (id : UInt32) (visible : Bool) (v : ViewPtr)
    (o o' : Overlay) : Prop extends Beside v o o' where
  index : ∀ id', viewIndexGet o' id' = if id' = id then some v else viewIndexGet o id'
  view_id : (o'.views v).id = id
  viewNext : o'.viewNext = o.viewNext + 1
  gone : ∀ b, ¬t.Indexed b → o'.vbranchList b = o.vbranchList b
  shows : Shows want t o' v {t.branch}
  only : ∀ b, stand t o' v b ≠ none → b = t.branch
  marked : (o'.vmem (o'.views v).vbranch).visible = visible
  outQ : o'.outQ = o.outQ

/-- A new view needs no more than an address that is not in use. -/
theorem createRootView_created (want : Demands) (wf : t.WellFormed)
    (free : ∀ {b}, t.Indexed b → o.mine o.viewNext b = []) (id : UInt32) (visible : Bool) :
    ∃ o', createRootView t o id visible = (o', o.viewNext) ∧
      Created want t id visible o.viewNext o o' := by
  let root : VbranchPtr := ⟨o.viewNext, o.vnext⟩
  let o₁ := (viewCreate o id root).1
  let new : Vbranch := { branch := t.branch, visible := visible }
  have within := addVbranch_within o₁ o.viewNext new wf.root_indexed
  have view : ((addVbranch t o₁ o.viewNext new).1.views o.viewNext).vbranch = root := by
    rw [within.view_root, viewCreate_view]
  have mine : ∀ {b}, t.Indexed b → (addVbranch t o₁ o.viewNext new).1.mine o.viewNext b =
      if b = t.branch then [root] else [] := by
    intro b indexed
    have none' : o₁.mine o.viewNext b = [] := free indexed
    rw [addVbranch_mine, none']
    simp only [true_and, List.nil_append]
    rfl
  have stands : ∀ {b vb}, stand t (addVbranch t o₁ o.viewNext new).1 o.viewNext b = some vb ↔
      b = t.branch ∧ vb = root := by
    intro b vb
    rw [stand_eq_some]
    constructor
    · rintro ⟨indexed, head⟩
      rw [mine indexed] at head
      split at head
      · rename_i here
        exact ⟨here, (Option.some.inj head).symm⟩
      · simp at head
    · rintro ⟨rfl, rfl⟩
      refine ⟨wf.root_indexed, ?_⟩
      rw [mine wf.root_indexed, if_pos rfl]
      rfl
  have cell : (addVbranch t o₁ o.viewNext new).1.vmem root = new :=
    (addVbranch_vmem t o₁ o.viewNext new root).trans (if_pos rfl)
  have shows : Shows want t (addVbranch t o₁ o.viewNext new).1 o.viewNext {t.branch} := by
    refine ⟨?_, ?_, rfl, ?_, ?_, ?_, ?_, ?_, ?_, ?_⟩
    · apply Shadow.single
      · exact fun a x present => (stands.mp present).1
      · intro x present
        rw [(stands.mp present).2, vchildren, cell]
    · rw [view]
      exact stands.mpr ⟨rfl, rfl⟩
    · rw [view, vparent, cell]
    · intro b vb present
      rcases stands.mp present with ⟨rfl, rfl⟩
      rw [cell]
    · intro b vb present
      rw [(stands.mp present).2]
      exact Nat.lt_succ_self o.vnext
    · intro b indexed
      rw [mine indexed]
      split <;> simp
    · intro _ b vb present
      rcases stands.mp present with ⟨rfl, rfl⟩
      rw [addVbranch_index, if_pos rfl]
      rfl
    · intro _ k vb found
      rw [addVbranch_index] at found
      left
      split at found
      · rename_i named
        exact ⟨t.branch, stands.mpr ⟨rfl, (Option.some.inj found).symm⟩, named.symm⟩
      · rw [vbranchIndexGet, viewCreate_view] at found
        simp at found
    · intro _ b vb present
      rw [(stands.mp present).2, vchildren, cell]
      exact List.nil_sublist _
  refine ⟨(addVbranch t o₁ o.viewNext new).1, rfl,
    ⟨(viewCreate_beside o id root).trans within.toBeside, ?_, ?_, rfl, within.gone, shows, ?_, ?_, rfl⟩⟩
  · intro id'
    rw [viewIndexGet, within.viewIndex]
    exact viewCreate_index o id id' root
  · rw [within.view_id, viewCreate_view]
  · intro b present
    rcases Option.ne_none_iff_exists'.mp present with ⟨vb, there⟩
    exact (stands.mp there).1
  · rw [view, cell]

theorem Sound.created {o' : Overlay} {visible : Bool} (sound : Sound want t o) (wf : t.WellFormed)
    (unused : viewIndexGet o id = none)
    (created : Created want t id visible o.viewNext o o') : Sound want t o' where
  registered := by
    intro id' w found
    rw [created.index] at found
    split at found
    · rename_i same
      rw [Option.some.injEq] at found
      subst found
      refine ⟨created.view_id.trans same.symm, ?_, created.shows⟩
      rw [created.viewNext]
      exact Nat.lt_succ_self _
    · rcases sound.registered found with ⟨named, allocated, before⟩
      have other : w ≠ o.viewNext := Nat.ne_of_lt allocated
      rw [created.views w other, created.viewNext]
      exact ⟨named, Nat.lt_succ_of_lt allocated, before.keeps (created.keeps other)⟩
  attached := by
    intro b vb indexed member
    by_cases own : vb.view = o.viewNext
    · exact ⟨id, by rw [created.index, if_pos rfl, own]⟩
    · have old : vb ∈ o'.mine vb.view b := mem_mine.mpr ⟨member, rfl⟩
      rw [created.mine vb.view b own] at old
      rcases sound.attached indexed (mem_mine.mp old).1 with ⟨id', found⟩
      refine ⟨id', ?_⟩
      rw [created.index, if_neg, found]
      rintro rfl
      simp [unused] at found
  fresh := by
    intro b beyond
    have out : ¬t.Indexed b := fun indexed =>
      Nat.lt_irrefl _ ((wf.indexed_lt indexed).trans_le beyond)
    rw [created.gone b out]
    exact sound.fresh b beyond
  sealed := by
    intro b out inner
    rw [created.gone b out]
    exact sound.sealed b out inner

/-- A new view shows the root and nothing else. -/
theorem Sound.createRootView (sound : Sound want t o) (wf : t.WellFormed)
    (unused : viewIndexGet o id = none) (visible : Bool) :
    ∃ o', createRootView t o id visible = (o', o.viewNext) ∧ Sound want t o' ∧
      viewIndexGet o' id = some o.viewNext ∧
      ∀ b, stand t o' o.viewNext b ≠ none → b = t.branch := by
  rcases createRootView_created want wf (fun {b} => sound.mine_next) id visible with
    ⟨o', made, created⟩
  exact ⟨o', made, sound.created wf unused created, by rw [created.index, if_pos rfl], created.only⟩

end Create

/-! ## Expanding registered views -/

section Init

variable {want : Demands} {t : Tree} {o o' : Overlay} {v : ViewPtr} {id : UInt32} {b : BranchPtr}

/-- Under a shown branch either all children are shown or none. -/
def Whole (t : Tree) (o : Overlay) (v : ViewPtr) : Prop :=
  ∀ p c d, t.parent c = some p → t.parent d = some p → stand t o v c ≠ none → stand t o v d ≠ none

theorem Whole.clear (whole : Whole t o v) (b : BranchPtr) : Clear t o v b := by
  intro a p c _ hidden step child
  by_contra shown
  exact whole p c a child step shown hidden

theorem OnClimb.sibling {p c d : BranchPtr} (onClimb : OnClimb t o v b c)
    (childC : t.parent c = some p) (childD : t.parent d = some p) : OnClimb t o v b d := by
  rcases onClimb with ⟨a, q, up, hidden, step, child⟩
  rw [childC] at child
  exact ⟨a, q, up, hidden, step, childD.trans child⟩

/-- A whole view stays whole when whole lists of siblings are shown in addition. -/
theorem Whole.enlarge {R : BranchPtr → Prop} (whole : Whole t o v)
    (shown : ∀ c, stand t o' v c ≠ none ↔ stand t o v c ≠ none ∨ R c)
    (closed : ∀ p c d, t.parent c = some p → t.parent d = some p → R c → R d) : Whole t o' v := by
  intro p c d childC childD there
  rw [shown d]
  rcases (shown c).mp there with before | more
  · exact .inl (whole p c d childC childD before)
  · exact .inr (closed p c d childC childD more)

/--
A whole view stays whole when a branch gets a new place, if the view shows the branch there exactly
where it shows the siblings.
-/
theorem Whole.place {t' : Tree} {x p : BranchPtr} (whole : Whole t o v)
    (placed : ∀ c, t'.parent c = if c = x then some p else t.parent c)
    (old : ∀ c, c ≠ x → stand t' o' v c = stand t o v c)
    (siblings : ∀ c, c ≠ x → t.parent c = some p →
      (stand t' o' v x ≠ none ↔ stand t o v c ≠ none)) : Whole t' o' v := by
  have known : ∀ {q c}, c ≠ x → t'.parent c = some q → t.parent c = some q := by
    intro q c other child
    rw [placed, if_neg other] at child
    exact child
  have above : ∀ {q}, t'.parent x = some q → p = q := by
    intro q child
    rw [placed, if_pos rfl] at child
    exact Option.some.inj child
  intro q c d childC childD there
  by_cases isC : c = x
  · subst isC
    by_cases isD : d = c
    · rw [isD]
      exact there
    · rw [old d isD]
      apply (siblings d isD _).mp there
      rw [above childC]
      exact known isD childD
  · rw [old c isC] at there
    by_cases isD : d = x
    · subst isD
      apply (siblings c isC _).mpr there
      rw [above childD]
      exact known isC childC
    · rw [old d isD]
      exact whole q c d (known isC childC) (known isD childD) there

/-- A registered view is expanded; the others stay as they are. -/
theorem Sound.viewExpandTo {withChildren : Bool} {r : Option VbranchPtr} (sound : Sound want t o)
    (wf : t.WellFormed) (found : viewIndexGet o id = some v) (indexed : t.Indexed b)
    (clear : Clear t o v b)
    (folded : withChildren = true → ∀ x, stand t o v b = some x →
      ∀ c, t.parent c = some b → stand t o v c = none)
    (run : viewExpandTo t o v b withChildren = .ok (o', r)) :
    Sound want t o' ∧ viewIndexGet o' id = some v := by
  rcases (sound.shows found).viewExpandTo wf (sound.sealed.searched wf indexed) indexed clear folded
    run with ⟨after, enlarges, _⟩
  refine ⟨sound.within wf found enlarges.within after, ?_⟩
  rw [viewIndexGet, enlarges.within.viewIndex]
  exact found

theorem Whole.viewExpandTo {withChildren : Bool} {r : Option VbranchPtr} (whole : Whole t o v)
    (shows : Shows want t o v {t.branch}) (wf : t.WellFormed) (searched : Searched t o v b)
    (indexed : t.Indexed b)
    (folded : withChildren = true → ∀ x, stand t o v b = some x →
      ∀ c, t.parent c = some b → stand t o v c = none)
    (run : viewExpandTo t o v b withChildren = .ok (o', r)) : Whole t o' v := by
  rcases shows.viewExpandTo wf searched indexed (whole.clear b) folded run with ⟨_, _, shown, _⟩
  apply whole.enlarge shown
  rintro p c d childC childD (onClimb | ⟨asked, present, child⟩)
  · exact .inl (onClimb.sibling childC childD)
  · rw [childC] at child
    exact .inr ⟨asked, present, childD.trans child⟩

/-- One branch that a request names is shown. -/
theorem Sound.showBranch (sound : Sound want t o) (wf : t.WellFormed)
    (found : viewIndexGet o id = some v) (whole : Whole t o v) (indexed : t.Indexed b)
    (run : showBranch t v o b = .ok o') :
    Sound want t o' ∧ viewIndexGet o' id = some v ∧ Whole t o' v := by
  rcases bind_eq_ok.mp run with ⟨⟨o₁, r⟩, expanded, run⟩
  have notAsked : false = true → ∀ x, stand t o v b = some x →
      ∀ c, t.parent c = some b → stand t o v c = none := by simp
  rcases sound.viewExpandTo wf found indexed (whole.clear b) notAsked expanded with
    ⟨sound₁, found₁⟩
  have whole₁ := whole.viewExpandTo (sound.shows found) wf (sound.sealed.searched wf indexed)
    indexed notAsked expanded
  split at run
  · simp at run
  · rename_i vb _
    simp only [pure_eq_ok, Except.ok.injEq] at run
    have marks : Marks o₁ o' := by
      rw [← run]
      exact marks_foldl o₁ true _
    refine ⟨sound₁.marks marks, ?_, ?_⟩
    · rw [viewIndexGet, marks.alike.viewIndex]
      exact found₁
    · intro p c d childC childD
      rw [marks.alike.stand t v]
      exact whole₁ p c d childC childD

theorem requestedBranches_indexed (wf : t.WellFormed) {branchId : UInt64} {query : CString}
    {docId : UInt64} {endpointIds rows : List UInt64}
    (member : b ∈ requestedBranches t branchId query docId endpointIds rows) : t.Indexed b := by
  have listed : ∀ {ids : List UInt64}, b ∈ ids.filterMap (branchIndexGet t) → t.Indexed b := by
    intro ids member
    rcases List.mem_filterMap.mp member with ⟨k, _, stored⟩
    exact ⟨k, stored⟩
  simp only [requestedBranches, List.mem_append, Option.mem_toList] at member
  rcases member with (stored | queried) | named
  · exact ⟨branchId, stored⟩
  · unfold queryBranches at queried
    split at queried
    · simp at queried
    · split at queried
      · split at queried
        · rcases List.mem_cons.mp queried with rfl | member
          · exact wf.root_indexed
          · exact listed (List.mem_of_mem_take member)
        · simp at queried
      · rcases List.mem_cons.mp queried with rfl | member
        · cases stored : branchIndexGet t branchId with
          | none => exact wf.root_indexed
          | some b => exact ⟨branchId, stored⟩
        · exact listed (List.mem_filter.mp (List.mem_of_mem_take member)).1
  · exact listed named

/-- A view that shows the root only hides every child. -/
theorem hidden_of_root (wf : t.WellFormed) (only : ∀ b, stand t o v b ≠ none → b = t.branch)
    {c p : BranchPtr} (child : t.parent c = some p) : stand t o v c = none := by
  by_contra there
  rw [only c there, wf.root_parent] at child
  simp at child

/-- A view that shows the root only is whole. -/
theorem whole_of_root (wf : t.WellFormed) (only : ∀ b, stand t o v b ≠ none → b = t.branch) :
    Whole t o v := by
  intro p c d childC _ there
  exact absurd (hidden_of_root wf only childC) there

theorem Sound.initRequested (sound : Sound want t o) (wf : t.WellFormed)
    (unused : viewIndexGet o id = none) {requested : List BranchPtr}
    (known : ∀ b ∈ requested, t.Indexed b) (run : initRequested t o id requested = .ok (o', v)) :
    Sound want t o' ∧ viewIndexGet o' id = some v := by
  rcases sound.createRootView wf unused false with ⟨o₁, created, sound₁, found₁, only⟩
  simp only [Treedb.initRequested, created] at run
  rcases bind_eq_ok.mp run with ⟨o₂, shown, run⟩
  simp only [pure_eq_ok, Except.ok.injEq, Prod.mk.injEq] at run
  rcases run with ⟨rfl, rfl⟩
  have kept := foldlM_invariant
    (fun o₂ => Sound want t o₂ ∧ viewIndexGet o₂ id = some o.viewNext ∧ Whole t o₂ o.viewNext)
    (fun o₂ b o₃ member before step =>
      before.1.showBranch wf before.2.1 before.2.2 (known b member) step)
    ⟨sound₁, found₁, whole_of_root wf only⟩ shown
  exact ⟨kept.1, kept.2.1⟩

theorem Sound.initDefault (sound : Sound want t o) (wf : t.WellFormed)
    (unused : viewIndexGet o id = none) (run : initDefault t o id = .ok (o', v)) :
    Sound want t o' ∧ viewIndexGet o' id = some v := by
  rcases sound.createRootView wf unused true with ⟨o₁, created, sound₁, found₁, only⟩
  simp only [Treedb.initDefault, created] at run
  rcases bind_eq_ok.mp run with ⟨⟨o₂, r⟩, expanded, run⟩
  simp only [pure_eq_ok, Except.ok.injEq, Prod.mk.injEq] at run
  rcases run with ⟨marked, rfl⟩
  rcases sound₁.viewExpandTo wf found₁ wf.root_indexed ((whole_of_root wf only).clear _)
    (fun _ _ _ _ child => hidden_of_root wf only child) expanded with ⟨sound₂, found₂⟩
  have marks : Marks o₂ o' := by
    rw [← marked]
    exact marks_foldl o₂ true _
  refine ⟨sound₂.marks marks, ?_⟩
  rw [viewIndexGet, marks.alike.viewIndex]
  exact found₂

theorem Sound.initView (sound : Sound want t o) (wf : t.WellFormed) {branchId : UInt64}
    {query : CString} {docId : UInt64} {endpointIds rows : List UInt64}
    (run : initView t o id branchId query docId endpointIds rows = .ok (o', v)) :
    Sound want t o' ∧ viewIndexGet o' id = some v := by
  rcases sound.dropView wf id with ⟨dropped, unused⟩
  unfold Treedb.initView at run
  split at run
  · exact dropped.initRequested wf unused (fun b => requestedBranches_indexed wf) run
  · exact dropped.initDefault wf unused run

/-- `map_branch_unfold` finds a shown vbranch or one that it does not change. -/
theorem Sound.unfold {m : Map} {branchId : UInt64} (sound : Sound want m.tree m.overlay)
    (index : want.index) (wf : m.tree.WellFormed) (found : viewIndexGet m.overlay id = some v) :
    Sound want m.tree (mapBranchUnfold m v branchId).overlay := by
  unfold mapBranchUnfold
  split
  · exact sound
  · rename_i vb stored
    split
    · exact sound
    · rename_i unequal
      have shows := sound.shows found
      rcases shows.index_spec index stored with ⟨b, present, _⟩ | ⟨_, left⟩
      · rcases shows.expandLoop wf 1 present with ⟨after, unfolds⟩
        exact (sound.within wf found unfolds.enlarges.within after).push _
      · refine absurd ?_ unequal
        rw [wf.childN_eq, left.bare]
        exact congrArg List.length left.folded

end Init

end Treedb
