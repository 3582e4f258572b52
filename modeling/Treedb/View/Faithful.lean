import Treedb.Structure
import Treedb.View.Life

/-!
# Faithful views

What it means for a view to be a picture of part of the tree, said of the vbranches themselves: as a
set, where the lists of vbranches are complete but in any order, and with the lists in the order of
the tree. Both are shadows of the tree in which no branch is shown without its siblings.
-/

namespace Treedb

open Forest Overlay

/-- The vbranch can be reached from the root of the view through the lists of vbranches. -/
def Overlay.Reaches (o : Overlay) (v : ViewPtr) (vb : VbranchPtr) : Prop :=
  Relation.ReflTransGen (fun x y => y ∈ o.vchildren x) (o.views v).vbranch vb

/-- The vbranch `vb` of the view `v` is attached to the branch `b` of the map. -/
structure Overlay.StandsFor (t : Tree) (o : Overlay) (v : ViewPtr) (b : BranchPtr)
    (vb : VbranchPtr) : Prop where
  indexed : t.Indexed b
  member : vb ∈ o.vbranchList b
  view : vb.view = v

/-- What every view has: a root, and vbranches that know their branch, one for each. -/
structure Overlay.Pictures (t : Tree) (o : Overlay) (v : ViewPtr) : Prop where
  root : StandsFor t o v t.branch (o.views v).vbranch
  rootless : o.vparent (o.views v).vbranch = none
  alone : ∀ {b}, t.Indexed b → (o.mine v b).length ≤ 1
  branch_eq : ∀ {b vb}, StandsFor t o v b vb → (o.vmem vb).branch = b
  allocated : ∀ {b vb}, StandsFor t o v b vb → vb.cell < o.vnext

/--
Every vbranch but the root hangs below that of the parent of its branch, and under each vbranch none
or all of the children of its branch are listed, in any order.
-/
structure Overlay.SetFaithful (t : Tree) (o : Overlay) (v : ViewPtr) : Prop
    extends Pictures t o v where
  hangs : ∀ {b vb}, StandsFor t o v b vb → b ≠ t.branch →
    ∃ p y, t.parent b = some p ∧ StandsFor t o v p y ∧ o.vparent vb = some y ∧ vb ∈ o.vchildren y
  lists : ∀ {b vb}, StandsFor t o v b vb → o.vchildren vb = [] ∨
    ((o.vchildren vb).map some).Perm ((t.children b).map (viewGetVbranch o v))

/--
The attached vbranches are those that can be reached from the root, and under each vbranch some of the
children of its branch are listed, in the order of the tree and pointing back to it.
-/
structure Overlay.Selective (t : Tree) (o : Overlay) (v : ViewPtr) : Prop
    extends Pictures t o v where
  attached_iff : ∀ vb, (∃ b, StandsFor t o v b vb) ↔ o.Reaches v vb
  lists : ∀ {b vb}, StandsFor t o v b vb →
    (o.vchildren vb).Sublist ((t.children b).filterMap (viewGetVbranch o v)) ∧
      ∀ y ∈ o.vchildren vb, o.vparent y = some vb

/--
The attached vbranches are those that can be reached from the root, and under each vbranch none or all
of the children of its branch are listed, in the order of the tree and pointing back to it.
-/
structure Overlay.Consistent (t : Tree) (o : Overlay) (v : ViewPtr) : Prop
    extends Pictures t o v where
  attached_iff : ∀ vb, (∃ b, StandsFor t o v b vb) ↔ o.Reaches v vb
  lists : ∀ {b vb}, StandsFor t o v b vb → o.vchildren vb = [] ∨
    (o.vchildren vb).map some = (t.children b).map (viewGetVbranch o v) ∧
      ∀ y ∈ o.vchildren vb, o.vparent y = some vb

section Faithful

variable {want : Demands} {t : Tree} {o o' : Overlay} {v : ViewPtr} {b c p : BranchPtr}
  {vb y : VbranchPtr}

theorem Overlay.StandsFor.mine (stands : StandsFor t o v b vb) : vb ∈ o.mine v b :=
  mem_mine.mpr ⟨stands.member, stands.view⟩

theorem standsFor_of_stand (present : stand t o v b = some vb) : StandsFor t o v b vb := by
  rcases stand_eq_some.mp present with ⟨indexed, head⟩
  rcases mem_mine.mp (List.mem_of_head? head) with ⟨member, own⟩
  exact ⟨indexed, member, own⟩

theorem Overlay.Pictures.stand_iff (pictures : Pictures t o v) :
    stand t o v b = some vb ↔ StandsFor t o v b vb := by
  refine ⟨standsFor_of_stand, fun stands => ?_⟩
  have short := pictures.alone stands.indexed
  have member := stands.mine
  rw [stand_eq_some]
  refine ⟨stands.indexed, ?_⟩
  rcases mine : o.mine v b with _ | ⟨x, _ | ⟨y, rest⟩⟩
  · simp [mine] at member
  · rw [mine, List.mem_singleton] at member
    simp [member]
  · simp [mine] at short

theorem Shows.standsFor_iff {tops : Set BranchPtr} (shows : Shows want t o v tops) :
    StandsFor t o v b vb ↔ stand t o v b = some vb :=
  ⟨fun stands => shows.attached stands.indexed stands.member stands.view, standsFor_of_stand⟩

theorem Shows.reaches_iff (shows : Shows want t o v {t.branch}) (wf : t.WellFormed) :
    o.Reaches v vb ↔ ∃ b, stand t o v b = some vb :=
  shows.shadow.reaches_iff wf.acyclic shows.root

theorem Shows.pictures {tops : Set BranchPtr} (shows : Shows want t o v tops) : Pictures t o v where
  root := standsFor_of_stand shows.root
  rootless := shows.rootless
  alone := shows.alone
  branch_eq := fun stands => shows.branch_eq (shows.standsFor_iff.mp stands)
  allocated := fun stands => shows.cell_lt (shows.standsFor_iff.mp stands)

theorem viewGetVbranch_child (wf : t.WellFormed) (member : c ∈ t.children b) :
    viewGetVbranch o v c = stand t o v c :=
  (stand_of_indexed (wf.indexed_of_parent (wf.mirrors.mem_iff.mp member))).symm

theorem map_some_filterMap {α β : Type} {f : α → Option β} {list : List α}
    (all : ∀ a ∈ list, f a ≠ none) : (list.filterMap f).map some = list.map f := by
  rw [List.map_filterMap_some_eq_filter_map_isSome, List.filter_eq_self]
  intro x member
  rcases List.mem_map.mp member with ⟨a, inside, rfl⟩
  rw [Option.isSome_iff_ne_none]
  exact all a inside

/-- A list that holds the vbranches of all children. -/
theorem shown_of_perm {list : List VbranchPtr} (wf : t.WellFormed)
    (all : (list.map some).Perm ((t.children b).map (viewGetVbranch o v))) :
    list.Perm ((t.children b).filterMap (stand t o v)) ∧
      ∀ c ∈ t.children b, stand t o v c ≠ none := by
  rw [List.map_congr_left fun c => viewGetVbranch_child wf] at all
  have shown : ∀ c ∈ t.children b, stand t o v c ≠ none := by
    intro c member absent
    have listed : none ∈ list.map some := by
      rw [all.mem_iff, ← absent]
      exact List.mem_map_of_mem member
    simp at listed
  rw [← map_some_filterMap shown, List.map_perm_map_iff (Option.some_injective _)] at all
  exact ⟨all, shown⟩

/-- The links of a view that is a picture of the tree, judged by the lists. -/
theorem Overlay.Pictures.shadow (pictures : Pictures t o v) (wf : t.WellFormed)
    (hangs : ∀ {b vb}, StandsFor t o v b vb → b ≠ t.branch → ∃ p y, t.parent b = some p ∧
      StandsFor t o v p y ∧ o.vparent vb = some y ∧ vb ∈ o.vchildren y)
    (lists : ∀ {b vb}, StandsFor t o v b vb → (o.vchildren vb).Nodup ∧
      o.vchildren vb ⊆ (t.children b).filterMap (stand t o v)) :
    Shadow t.parent {t.branch} (stand t o v) o.vparent o.vchildren where
  inj := by
    intro a b x first second
    rw [← pictures.branch_eq (standsFor_of_stand first),
      pictures.branch_eq (standsFor_of_stand second)]
  up_eq := by
    intro a x present low
    rcases hangs (standsFor_of_stand present) low with ⟨p, y, step, above, link, _⟩
    exact ⟨p, y, step, pictures.stand_iff.mpr above, link⟩
  mem_down := by
    intro a x y present
    constructor
    · intro member
      rcases (mem_shownChildren wf).mp ((lists (standsFor_of_stand present)).2 member) with
        ⟨c, child, there⟩
      refine ⟨c, child, ?_, there⟩
      exact wf.ne_root child
    · rintro ⟨c, child, low, there⟩
      rcases hangs (standsFor_of_stand there) low with ⟨p, z, step, above, _, member⟩
      rw [child, Option.some.injEq] at step
      have same := pictures.stand_iff.mpr above
      rw [← step, present, Option.some.injEq] at same
      exact same ▸ member
  nodup := fun present => (lists (standsFor_of_stand present)).1

/-- A picture of the tree with these links meets demands that leave the index alone. -/
theorem Overlay.Pictures.shows (pictures : Pictures t o v) (free : ¬want.index)
    (shadow : Shadow t.parent {t.branch} (stand t o v) o.vparent o.vchildren)
    (sorted : want.order → ∀ {b vb}, stand t o v b = some vb →
      (o.vchildren vb).Sublist ((t.children b).filterMap (stand t o v))) :
    Shows want t o v {t.branch} where
  shadow := shadow
  root := pictures.stand_iff.mpr pictures.root
  root_top := rfl
  rootless := pictures.rootless
  branch_eq := fun present => pictures.branch_eq (standsFor_of_stand present)
  cell_lt := fun present => pictures.allocated (standsFor_of_stand present)
  alone := pictures.alone
  listed := fun index => absurd index free
  index_spec := fun index => absurd index free
  sorted := sorted

theorem Overlay.Pictures.nodup_shownChildren (pictures : Pictures t o v) (wf : t.WellFormed)
    (b : BranchPtr) : ((t.children b).filterMap (stand t o v)).Nodup := by
  apply (wf.mirrors.nodup b).filterMap
  intro c d y first second
  rw [← pictures.branch_eq (standsFor_of_stand first),
    pictures.branch_eq (standsFor_of_stand second)]

/-- A vbranch with an entry in its list lists all children, where none is shown without the others. -/
theorem Shows.shown_of_mem (shows : Shows want t o v {t.branch}) (whole : Whole t o v)
    (wf : t.WellFormed) (present : stand t o v b = some vb) (member : y ∈ o.vchildren vb) :
    ∀ c ∈ t.children b, stand t o v c ≠ none := by
  intro d inside
  rcases (shows.shadow.mem_down present).mp member with ⟨c, child, _, there⟩
  exact whole b c d child (wf.mirrors.mem_iff.mp inside) (by simp [there])

/-- The entries of a list point back to the vbranch. -/
theorem Shows.vparent_of_mem (shows : Shows want t o v {t.branch}) (present : stand t o v b = some vb)
    (member : y ∈ o.vchildren vb) : o.vparent y = some vb := by
  rcases (shows.shadow.mem_down present).mp member with ⟨c, child, low, there⟩
  rcases shows.shadow.up_eq there low with ⟨p, z, step, above, link⟩
  rw [child, Option.some.injEq] at step
  rw [← step, present, Option.some.injEq] at above
  rw [link, above]

/-! ## As sets -/

theorem Overlay.SetFaithful.shows (faithful : SetFaithful t o v) (wf : t.WellFormed) :
    Shows .bare t o v {t.branch} := by
  apply faithful.toPictures.shows id _ False.elim
  apply faithful.toPictures.shadow wf faithful.hangs
  intro b vb stands
  rcases faithful.lists stands with folded | all
  · rw [folded]
    exact ⟨List.nodup_nil, List.nil_subset _⟩
  · have same := (shown_of_perm wf all).1
    rw [same.nodup_iff]
    exact ⟨faithful.nodup_shownChildren wf b, same.subset⟩

/-- A faithful view is a shadow in which no branch is shown without its siblings. -/
theorem setFaithful_iff (wf : t.WellFormed) :
    SetFaithful t o v ↔ Shows .bare t o v {t.branch} ∧ Whole t o v := by
  constructor
  · intro faithful
    have shows := faithful.shows wf
    refine ⟨shows, ?_⟩
    intro p c d childC childD there
    rcases Option.ne_none_iff_exists'.mp there with ⟨x, present⟩
    have low : c ≠ t.branch := wf.ne_root childC
    rcases faithful.hangs (standsFor_of_stand present) low with ⟨q, y, step, above, _, member⟩
    rw [childC, Option.some.injEq] at step
    subst step
    rcases faithful.lists above with folded | all
    · simp [folded] at member
    · exact (shown_of_perm wf all).2 d (wf.mirrors.mem_iff.mpr childD)
  · rintro ⟨shows, whole⟩
    refine ⟨shows.pictures, ?_, ?_⟩
    · intro b vb stands low
      have present := shows.standsFor_iff.mp stands
      rcases shows.shadow.up_eq present low with ⟨p, y, step, above, link⟩
      exact ⟨p, y, step, standsFor_of_stand above, link,
        (shows.shadow.mem_down above).mpr ⟨b, step, low, present⟩⟩
    · intro b vb stands
      have present := shows.standsFor_iff.mp stands
      rw [List.map_congr_left fun c => viewGetVbranch_child wf]
      rcases list : o.vchildren vb with _ | ⟨x, rest⟩
      · exact .inl rfl
      · right
        have shown := shows.shown_of_mem whole wf present (y := x) (by simp [list])
        rw [← list, ← map_some_filterMap shown]
        exact (shows.vchildren_perm wf present).map some

/-! ## In order -/

/-- A view whose lists are selections in order is a shadow in order. -/
theorem selective_iff (wf : t.WellFormed) :
    Selective t o v ↔ Shows .ordered t o v {t.branch} := by
  constructor
  · intro selective
    have lists : ∀ {b vb}, StandsFor t o v b vb →
        (o.vchildren vb).Sublist ((t.children b).filterMap (stand t o v)) := by
      intro b vb stands
      rw [← List.filterMap_congr fun c => viewGetVbranch_child wf]
      exact (selective.lists stands).1
    refine selective.toPictures.shows id ?_ fun _ _ _ present => lists (standsFor_of_stand present)
    refine selective.toPictures.shadow wf ?_ fun stands =>
      ⟨(lists stands).nodup (selective.nodup_shownChildren wf _), (lists stands).subset⟩
    intro b vb stands low
    -- The last step of the way from the root to the vbranch shows where it hangs.
    rcases (selective.attached_iff vb).mp ⟨b, stands⟩ with _ | ⟨reached, member⟩
    · have same := selective.branch_eq selective.root
      rw [selective.branch_eq stands] at same
      exact absurd same low
    · rename_i y
      rcases (selective.attached_iff y).mpr reached with ⟨p, above⟩
      rcases (mem_shownChildren wf).mp ((lists above).subset member) with ⟨c, child, there⟩
      have same := selective.branch_eq (standsFor_of_stand there)
      rw [selective.branch_eq stands] at same
      subst same
      exact ⟨p, y, child, above, (selective.lists above).2 vb member, member⟩
  · intro shows
    refine ⟨shows.pictures, ?_, ?_⟩
    · intro vb
      rw [shows.reaches_iff wf]
      exact exists_congr fun b => shows.standsFor_iff
    · intro b vb stands
      have present := shows.standsFor_iff.mp stands
      refine ⟨?_, fun y => shows.vparent_of_mem present⟩
      rw [List.filterMap_congr fun c => viewGetVbranch_child wf]
      exact shows.sorted trivial present

theorem Overlay.Consistent.selective (consistent : Consistent t o v) (wf : t.WellFormed) :
    Selective t o v := by
  refine ⟨consistent.toPictures, consistent.attached_iff, ?_⟩
  intro b vb stands
  rcases consistent.lists stands with folded | ⟨all, links⟩
  · rw [folded]
    exact ⟨List.nil_sublist _, by simp⟩
  · refine ⟨?_, links⟩
    have shown := (shown_of_perm wf (.of_eq all)).2
    rw [List.map_congr_left fun c => viewGetVbranch_child wf, ← map_some_filterMap shown] at all
    rw [List.filterMap_congr fun c => viewGetVbranch_child wf,
      List.map_injective_iff.mpr (Option.some_injective _) all]

/-- A consistent view is a shadow in order, in which no branch is shown without its siblings. -/
theorem consistent_iff (wf : t.WellFormed) :
    Consistent t o v ↔ Shows .ordered t o v {t.branch} ∧ Whole t o v := by
  constructor
  · intro consistent
    have shows := (selective_iff wf).mp (consistent.selective wf)
    refine ⟨shows, ?_⟩
    intro p c d childC childD there
    rcases Option.ne_none_iff_exists'.mp there with ⟨x, present⟩
    have low : c ≠ t.branch := wf.ne_root childC
    rcases shows.shadow.up_eq present low with ⟨q, y, step, above, _⟩
    rw [childC, Option.some.injEq] at step
    subst step
    have member := (shows.shadow.mem_down above).mpr ⟨c, childC, low, present⟩
    rcases consistent.lists (standsFor_of_stand above) with folded | ⟨all, _⟩
    · simp [folded] at member
    · exact (shown_of_perm wf (.of_eq all)).2 d (wf.mirrors.mem_iff.mpr childD)
  · rintro ⟨shows, whole⟩
    have selective := (selective_iff wf).mpr shows
    refine ⟨shows.pictures, selective.attached_iff, ?_⟩
    intro b vb stands
    have present := shows.standsFor_iff.mp stands
    rcases list : o.vchildren vb with _ | ⟨x, rest⟩
    · exact .inl rfl
    · right
      have shown := shows.shown_of_mem whole wf present (y := x) (by simp [list])
      rw [← list, List.map_congr_left fun c => viewGetVbranch_child wf, ← map_some_filterMap shown,
        shows.vchildren_eq trivial wf present]
      exact ⟨rfl, fun y member =>
        shows.vparent_of_mem present (by rw [shows.vchildren_eq trivial wf present]; exact member)⟩

theorem Overlay.Consistent.setFaithful (consistent : Consistent t o v) (wf : t.WellFormed) :
    SetFaithful t o v := by
  rcases (consistent_iff wf).mp consistent with ⟨shows, whole⟩
  exact (setFaithful_iff wf).mpr ⟨shows.bare, whole⟩

/-! ## The first view of a map -/

theorem Overlay.NoViews.sound (none' : o.NoViews) : Sound want t o where
  registered := by
    intro id v found
    simp [viewIndexGet, none'.index] at found
  attached := by
    intro b vb _ member
    simp [none'.lists] at member
  fresh := fun b _ => none'.lists b
  sealed := fun b _ _ => none'.lists b

/-- A view that shows only the root is consistent. -/
theorem Overlay.Created.consistent {id : UInt32} {visible : Bool} (wf : t.WellFormed)
    (created : Created .ordered t id visible v o o') : Consistent t o' v :=
  (consistent_iff wf).mpr ⟨created.shows, whole_of_root wf created.only⟩

theorem Overlay.NoViews.consistent (none' : o.NoViews) (wf : t.WellFormed) (id : UInt32)
    (visible : Bool) :
    ∃ o', createRootView t o id visible = (o', o.viewNext) ∧ Consistent t o' o.viewNext := by
  have free : ∀ {b}, t.Indexed b → o.mine o.viewNext b = [] := by
    intro b _
    rw [Overlay.mine, none'.lists]
    rfl
  rcases createRootView_created .ordered wf free id visible with ⟨o', made, created⟩
  exact ⟨o', made, created.consistent wf⟩

end Faithful

end Treedb
