import Treedb.Reachability
import Treedb.View.Faithful

/-!
# Expanding views

What `view_expand_to` and `view_expand` do to a view. The first shows a branch together with all
branches beside the way up to the root; the second completes the lists below a vbranch, three levels
deep at most. Both keep every vbranch that is there.
-/

namespace Treedb

open Forest Overlay Treedb.Tree

/-- The view shows the branch. -/
def Overlay.Shown (t : Tree) (o : Overlay) (v : ViewPtr) (b : BranchPtr) : Prop :=
  ∃ vb, StandsFor t o v b vb

/-- The siblings of the branches on the way up from `b`, except the root; each is its own sibling. -/
def Tree.BesidePath (t : Tree) (b c : BranchPtr) : Prop :=
  ∃ a p, Anc t.parent b a ∧ t.parent a = some p ∧ t.parent c = some p

/-- The views before and after an expansion of the view `v` to the branch `b`. -/
structure Overlay.ExpandedTo (t : Tree) (v : ViewPtr) (b : BranchPtr) (o o' : Overlay) : Prop where
  consistent : Consistent t o' v
  shown_iff : ∀ c, Shown t o' v c ↔ Shown t o v c ∨ t.BesidePath b c
  kept : ∀ {c vb}, StandsFor t o v c vb → StandsFor t o' v c vb ∧
    o'.vparent vb = o.vparent vb ∧ (o'.vmem vb).visible = (o.vmem vb).visible
  others : ∀ w, w ≠ v → Keeps w o o'

section ExpandTo

variable {want : Demands} {t : Tree} {o o' : Overlay} {v : ViewPtr} {b c : BranchPtr}
  {vb : VbranchPtr} {r : Option VbranchPtr}

theorem Shows.shown_iff {tops : Set BranchPtr} (shows : Shows want t o v tops) :
    Shown t o v b ↔ stand t o v b ≠ none := by
  rw [Option.ne_none_iff_exists']
  exact exists_congr fun vb => shows.standsFor_iff

/-- The branches on the way up from a branch below the root are in the index. -/
theorem indexed_of_way (wf : t.WellFormed) (low : Anc t.parent b t.branch) (up : Anc t.parent b c) :
    t.Indexed c := by
  apply wf.indexed_of_anc
  rcases up.total low with above | below
  · exact above
  · rw [(anc_iff_of_root wf.root_parent).mp below]

/-- The searches on the way up from a branch below the root find what stands for the branches. -/
theorem searched_of_anc (wf : t.WellFormed) (low : Anc t.parent b t.branch) : Searched t o v b :=
  fun _ up => stand_of_indexed (indexed_of_way wf low up)

/-- What a shadow shows keeps its place when the view is enlarged. -/
theorem Shows.vparent_eq (shows : Shows want t o v {t.branch}) (after : Shows want t o' v {t.branch})
    (enlarges : Enlarges t v o o') (present : stand t o v c = some vb) :
    o'.vparent vb = o.vparent vb := by
  by_cases top : c = t.branch
  · rw [top, shows.root, Option.some.injEq] at present
    rw [← present, shows.rootless, ← enlarges.within.view_root, after.rootless]
  · rcases shows.shadow.up_eq present top with ⟨p, y, step, above, link⟩
    rcases after.shadow.up_eq (enlarges.kept present) top with ⟨q, z, step', above', link'⟩
    rw [step, Option.some.injEq] at step'
    rw [← step', enlarges.kept above, Option.some.injEq] at above'
    rw [link, link', above']

/-- Where nothing is shown without its siblings, the climb shows all that is beside the path. -/
theorem Whole.onClimb_iff (whole : Whole t o v) :
    stand t o v c ≠ none ∨ OnClimb t o v b c ↔ stand t o v c ≠ none ∨ t.BesidePath b c := by
  constructor
  · rintro (there | ⟨a, p, up, _, step, child⟩)
    · exact .inl there
    · exact .inr ⟨a, p, up, step, child⟩
  · rintro (there | ⟨a, p, up, step, child⟩)
    · exact .inl there
    · by_cases hidden : stand t o v a = none
      · exact .inr ⟨a, p, up, hidden, step, child⟩
      · exact .inl (whole p a c step child hidden)

/-- A whole view in order is expanded to a branch below the root. -/
theorem Shows.expandTo (shows : Shows want t o v {t.branch}) (whole : Whole t o v)
    (wf : t.WellFormed) (low : Anc t.parent b t.branch) :
    ∃ o' r, Treedb.viewExpandTo t o v b false = .ok (o', r) ∧ Shows want t o' v {t.branch} ∧
      Whole t o' v ∧ Enlarges t v o o' ∧
      (∀ c, stand t o' v c ≠ none ↔ stand t o v c ≠ none ∨ t.BesidePath b c) ∧
      (b ≠ t.branch → ∃ e y, r = some y ∧ FirstShown t o v b e y) := by
  have root := shows.root
  rw [stand_of_indexed wf.root_indexed] at root
  rcases viewExpandTo_total root low false with ⟨⟨o', r⟩, run⟩
  rcases shows.viewExpandTo wf (searched_of_anc wf low) (wf.indexed_of_anc low) (whole.clear b)
    (by simp) run with ⟨after, enlarges, shown, ends⟩
  have shown' : ∀ c, stand t o' v c ≠ none ↔ stand t o v c ≠ none ∨ t.BesidePath b c := by
    intro c
    rw [shown c, ← whole.onClimb_iff]
    simp
  have whole' := whole.viewExpandTo shows wf (searched_of_anc wf low) (wf.indexed_of_anc low)
    (by simp) run
  refine ⟨o', r, run, after, whole', enlarges, shown', ?_⟩
  intro other
  rcases ends with ⟨top, _⟩ | ⟨_, first⟩
  · exact absurd ((anc_iff_of_root top).mp low).symm other
  · exact first

/--
`view_expand_to` returns and leaves a consistent view that shows what is beside the path to the branch
in addition. It answers the vbranch of the lowest branch on that path that was shown before.
-/
theorem viewExpandTo_expands (wf : t.WellFormed) (consistent : Consistent t o v)
    (reachable : t.Reachable b) :
    ∃ o' r, viewExpandTo t o v b false = .ok (o', r) ∧ ExpandedTo t v b o o' ∧
      (b ≠ t.branch → ∃ e y, r = some y ∧ Anc t.parent b e ∧ StandsFor t o v e y ∧
        ∀ a, Anc t.parent b a → Shown t o v a → Anc t.parent e a) := by
  rcases (consistent_iff wf).mp consistent with ⟨shows, whole⟩
  have low := wf.reachable_iff.mp reachable
  rcases shows.expandTo whole wf low with ⟨o', r, run, after, whole', enlarges, shown, ends⟩
  refine ⟨o', r, run, ⟨(consistent_iff wf).mpr ⟨after, whole'⟩, ?_, ?_, ?_⟩, ?_⟩
  · intro c
    rw [after.shown_iff, shows.shown_iff]
    exact shown c
  · intro c vb stands
    have present := shows.standsFor_iff.mp stands
    have there := enlarges.kept present
    refine ⟨standsFor_of_stand there, shows.vparent_eq after enlarges present, ?_⟩
    rw [enlarges.marks there, present]
    rfl
  · exact fun w other => enlarges.within.keeps other
  · intro other
    rcases ends other with ⟨e, y, result, first⟩
    refine ⟨e, y, result, first.anc, standsFor_of_stand first.present, ?_⟩
    intro a up there
    rcases first.anc.total up with below | above
    · exact below
    · rcases anc_iff_eq_or_strictAnc.mp above with same | strict
      · rw [same]
      · exact absurd (first.hidden up strict) (shows.shown_iff.mp there)

/-- A map whose root has one child, which has two. -/
theorem family_run :
    ∃ m, (mapCreateEmpty 1).run [.insert 0 1 2 0 [] 0 0, .insert 0 2 3 0 [] 0 0,
        .insert 0 2 4 0 [] 0 0] = .ok m ∧ m.tree.WellFormed ∧ m.tree.Rooted ∧
      m.tree.branch = 0 ∧ m.tree.children 0 = [1] ∧ m.tree.children 1 = [3, 2] := by
  have start := mapCreateEmpty_holdsOnlyRoot 1
  have observed : ((mapCreateEmpty 1).run [.insert 0 1 2 0 [] 0 0, .insert 0 2 3 0 [] 0 0,
      .insert 0 2 4 0 [] 0 0]).toOption.map
        (fun m => (m.tree.branch, m.tree.children 0, m.tree.children 1)) =
      some (0, [1], [3, 2]) := by
    decide +kernel
  cases run : (mapCreateEmpty 1).run [.insert 0 1 2 0 [] 0 0, .insert 0 2 3 0 [] 0 0,
      .insert 0 2 4 0 [] 0 0] with
  | error e => simp [run, Except.toOption] at observed
  | ok m =>
      simp only [run, Except.toOption, Option.map_some, Option.some.injEq, Prod.mk.injEq] at observed
      exact ⟨m, rfl, run_wellFormed start.wellFormed run,
        run_rooted start.wellFormed start.rooted (by decide +kernel) run, observed⟩

/-- A view of the root is expanded to a branch two levels below it. -/
theorem viewExpandTo_expands_example :
    ∃ m o o' r, (mapCreateEmpty 1).run [.insert 0 1 2 0 [] 0 0, .insert 0 2 3 0 [] 0 0,
        .insert 0 2 4 0 [] 0 0] = .ok m ∧
      createRootView m.tree emptyOverlay 7 false = (o, 0) ∧
      viewExpandTo m.tree o 0 3 false = .ok (o', r) ∧ ExpandedTo m.tree 0 3 o o' := by
  rcases family_run with ⟨m, run, wf, _, root, below, inner⟩
  have none' := (mapCreateEmpty_holdsOnlyRoot 1).views
  rcases none'.consistent wf 7 false with ⟨o, created, consistent⟩
  have reachable : m.tree.Reachable 3 := by
    rw [wf.reachable_iff, root]
    have first : m.tree.parent 3 = some 1 := wf.mirrors.mem_iff.mp (by simp [inner])
    have second : m.tree.parent 1 = some 0 := wf.mirrors.mem_iff.mp (by simp [below])
    exact (anc_of_parent first).trans (anc_of_parent second)
  rcases viewExpandTo_expands wf consistent reachable with ⟨o', r, expanded, result, _⟩
  exact ⟨m, o, o', r, run, created, expanded, result⟩

end ExpandTo

/-! ## Unfolding -/

/-- The vbranch `y` is listed `d` levels below `x`. -/
def Overlay.AtDepth (o : Overlay) : ℕ → VbranchPtr → VbranchPtr → Prop
  | 0, x, y => y = x
  | d + 1, x, y => ∃ z ∈ o.vchildren x, o.AtDepth d z y

/-- The views before and after the lists were completed down to the given depth below `vb`. -/
structure Overlay.Completed (t : Tree) (v : ViewPtr) (vb : VbranchPtr) (depth : ℕ)
    (o o' : Overlay) : Prop where
  selective : Selective t o' v
  full : ∀ {d x}, d ≤ depth → o'.AtDepth d vb x →
    (o'.vchildren x).map some = (t.children (o'.vmem x).branch).map (viewGetVbranch o' v)
  kept : ∀ {c y}, StandsFor t o v c y → StandsFor t o' v c y ∧ o'.vparent y = o.vparent y ∧
    (o'.vmem y).visible = (o.vmem y).visible ∧ (o.vchildren y).Sublist (o'.vchildren y)
  added : ∀ {c y}, StandsFor t o' v c y → ¬Shown t o v c →
    (∃ d ≤ depth, ∃ x, o'.AtDepth d vb x ∧ y ∈ o'.vchildren x) ∧
      vbranchIndexGet o' v (t.mem c).id = some y
  unchanged : ∀ {c y}, StandsFor t o v c y → (∀ d ≤ depth, ¬o'.AtDepth d vb y) →
    o'.vmem y = o.vmem y
  others : ∀ w, w ≠ v → Keeps w o o'

section Unfold

variable {want : Demands} {t : Tree} {o : Overlay} {v : ViewPtr} {a b e : BranchPtr}
  {vb x y : VbranchPtr}

theorem anc_of_near {levels : ℕ} (near : t.Near levels a e) : Anc t.parent e a := by
  induction levels generalizing a with
  | zero => exact near.elim
  | succ levels ih =>
      rcases near with rfl | ⟨c, child, near⟩
      · exact anc_refl _ _
      · exact (ih near).trans (anc_of_parent child)

/-- What is listed near a vbranch stands for a branch near that of the vbranch. -/
theorem Shows.near_of_atDepth (shows : Shows want t o v {t.branch}) {levels d : ℕ}
    (shallow : d < levels) (present : stand t o v a = some x) (below : o.AtDepth d x y) :
    ∃ e, stand t o v e = some y ∧ t.Near levels a e := by
  induction levels generalizing a x d with
  | zero => omega
  | succ levels ih =>
      cases d with
      | zero => exact ⟨a, by rw [present, below], .inl rfl⟩
      | succ d =>
          rcases below with ⟨z, member, below⟩
          rcases (shows.shadow.mem_down present).mp member with ⟨c, child, _, there⟩
          rcases ih (by omega) there below with ⟨e, found, near⟩
          exact ⟨e, found, .inr ⟨c, child, near⟩⟩

/-- A shown branch near another one is listed near its vbranch. -/
theorem Shows.atDepth_of_near (shows : Shows want t o v {t.branch}) (wf : t.WellFormed)
    {levels : ℕ} (near : t.Near levels a e) (present : stand t o v a = some x)
    (found : stand t o v e = some y) : ∃ d < levels, o.AtDepth d x y := by
  induction levels generalizing a x with
  | zero => exact near.elim
  | succ levels ih =>
      rcases near with rfl | ⟨c, child, near⟩
      · rw [found, Option.some.injEq] at present
        exact ⟨0, by omega, present⟩
      · have low : c ≠ t.branch := wf.ne_root child
        have shown := shows.present_above wf found (anc_of_near near)
        rcases Option.ne_none_iff_exists'.mp shown with ⟨z, there⟩
        rcases ih near there with ⟨d, shallow, below⟩
        refine ⟨d + 1, by omega, z, ?_, below⟩
        exact (shows.shadow.mem_down present).mpr ⟨c, child, low, there⟩

/--
`view_expand` completes the lists of a vbranch and of those near it, with new vbranches for exactly
the children that were missing. It keeps all vbranches that are there.
-/
theorem viewExpand_completes (wf : t.WellFormed) (selective : Selective t o v)
    (stands : StandsFor t o v b vb) {level : ℕ} (shallow : level < 3) :
    Completed t v vb (2 - level) o (viewExpand t o vb level) := by
  have shows := (selective_iff wf).mp selective
  have present := shows.standsFor_iff.mp stands
  have depth : ∀ d, d ≤ 2 - level ↔ d < 3 - level := by omega
  rcases shows.expandLoop wf (3 - level) present with ⟨after, unfolds⟩
  change Shows .ordered t (viewExpand t o vb level) v {t.branch} at after
  change Unfolds t v (t.Near (3 - level) b) o (viewExpand t o vb level) at unfolds
  generalize viewExpand t o vb level = o' at after unfolds
  have present' := unfolds.enlarges.kept present
  refine ⟨(selective_iff wf).mpr after, ?_, ?_, ?_, ?_, ?_⟩
  · intro d x low below
    rcases after.near_of_atDepth ((depth d).mp low) present' below with ⟨e, found, near⟩
    have shown : ∀ c ∈ t.children e, stand t o' v c ≠ none := fun c member =>
      (unfolds.shown_iff c).mpr (.inr ⟨e, near, wf.mirrors.mem_iff.mp member⟩)
    rw [after.branch_eq found, List.map_congr_left fun c => viewGetVbranch_child wf,
      ← map_some_filterMap shown, after.vchildren_eq trivial wf found]
  · intro c y standsC
    have there := shows.standsFor_iff.mp standsC
    have kept := unfolds.enlarges.kept there
    refine ⟨standsFor_of_stand kept, shows.vparent_eq after unfolds.enlarges there, ?_, ?_⟩
    · rw [unfolds.enlarges.marks kept, there]
      rfl
    · rw [shows.vchildren_eq trivial wf there, after.vchildren_eq trivial wf kept]
      exact filterMap_sublist_of_kept fun _ _ => unfolds.enlarges.kept
  · intro c y standsC missing
    have there := after.standsFor_iff.mp standsC
    have absent : stand t o v c = none := by
      rw [shows.shown_iff, not_not] at missing
      exact missing
    refine ⟨?_, unfolds.enlarges.listed absent there⟩
    rcases (unfolds.shown_iff c).mp (by simp [there]) with before | ⟨e, near, child⟩
    · exact absurd absent before
    · have low : c ≠ t.branch := wf.ne_root child
      rcases after.shadow.up_eq there low with ⟨p, z, step, above, _⟩
      rw [child, Option.some.injEq] at step
      subst step
      rcases after.atDepth_of_near wf near present' above with ⟨d, low', below⟩
      exact ⟨d, (depth d).mpr low', z, below,
        (after.shadow.mem_down above).mpr ⟨c, child, low, there⟩⟩
  · intro c y standsC far
    have there := shows.standsFor_iff.mp standsC
    apply unfolds.unchanged there
    intro near
    rcases after.atDepth_of_near wf near present' (unfolds.enlarges.kept there) with
      ⟨d, low, below⟩
    exact far d ((depth d).mpr low) below
  · exact fun w other => unfolds.enlarges.within.keeps other

/-- A view of the root is unfolded. -/
theorem viewExpand_completes_example :
    ∃ m o, (mapCreateEmpty 1).run [.insert 0 1 2 0 [] 0 0, .insert 0 2 3 0 [] 0 0,
        .insert 0 2 4 0 [] 0 0] = .ok m ∧
      createRootView m.tree emptyOverlay 7 false = (o, 0) ∧
      Completed m.tree 0 (o.views 0).vbranch 2 o (viewExpand m.tree o (o.views 0).vbranch 0) := by
  rcases family_run with ⟨m, run, wf, _⟩
  have none' := (mapCreateEmpty_holdsOnlyRoot 1).views
  rcases none'.consistent wf 7 false with ⟨o, created, consistent⟩
  have selective : Selective m.tree o 0 := consistent.selective wf
  have shallow : 0 < 3 := by decide
  exact ⟨m, o, run, created, viewExpand_completes wf selective selective.root shallow⟩

end Unfold

end Treedb
