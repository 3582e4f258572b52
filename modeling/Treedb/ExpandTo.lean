import Treedb.Inserting
import Treedb.View.Print

/-!
# Expanding a view on request (`map_expand_to`)

A client may ask for any branch with all its children. The view climbs to the first vbranch it has
above the branch and fills the way down. The last step makes new vbranches for the children, whether
the view has some already or not, and the answer of the climb says nothing about it.
-/

namespace Treedb

open Forest Overlay Outcome Treedb.Tree

/-! ## Expanding twice -/

/-- The view is consistent, shows the branch and its children, and keeps all it showed. -/
structure Overlay.ExpandedWith (t : Tree) (v : ViewPtr) (b : BranchPtr) (o o' : Overlay) : Prop where
  consistent : Consistent t o' v
  shown : Shown t o' v b
  children : ∀ c ∈ t.children b, Shown t o' v c
  kept : ∀ {c vb}, StandsFor t o v c vb → StandsFor t o' v c vb

/-- The vbranches are linked and attached as before. -/
structure Overlay.SameTrees (o o' : Overlay) : Prop where
  vmem : o'.vmem = o.vmem
  vbranchList : o'.vbranchList = o.vbranchList

section Twice

variable {want : Demands} {t : Tree} {o o' : Overlay} {v : ViewPtr} {b c : BranchPtr}
  {x : VbranchPtr} {r : Option VbranchPtr}

/-- From a branch that the view shows there is nowhere to climb. -/
theorem expandPath_of_found (found : viewGetVbranch o v b = some x) :
    expandPath t o v b = .ok (o, if t.parent b = none then none else some x) := by
  unfold expandPath
  split
  · rename_i top
    rw [if_pos (show t.parent b = none from top)]
  · rename_i p step
    have inner : t.parent b ≠ none := by
      rw [show t.parent b = some p from step]
      simp
    simp only [expandToLoop, found, if_neg inner]

theorem viewExpandTo_of_found (found : viewGetVbranch o v b = some x) :
    viewExpandTo t o v b true =
      .ok (expandChildren t o v b, if t.parent b = none then none else some x) := by
  rw [viewExpandTo, expandPath_of_found found]
  rfl

theorem foldl_addTo_mine (t : Tree) (v : ViewPtr) (above : Option VbranchPtr)
    (bs : List BranchPtr) (s : Overlay × List VbranchPtr) (c : BranchPtr) :
    ((bs.foldl (addTo t v above) s).1.mine v c).length = (s.1.mine v c).length + bs.count c := by
  induction bs generalizing s with
  | nil => rfl
  | cons d bs ih =>
      rw [List.foldl_cons, ih, addTo, addVbranch_mine]
      by_cases here : c = d
      · subst here
        simp only [and_self, if_true, List.length_append, List.length_singleton,
          List.count_cons_self]
        omega
      · have other : ¬(v = v ∧ c = d) := by simp [here]
        rw [if_neg other, List.count_cons_of_ne (Ne.symm here)]

/-- Every child of a branch that the view shows gets one more vbranch. -/
theorem expandChildren_mine (wf : t.WellFormed) (found : viewGetVbranch o v b = some x)
    (child : c ∈ t.children b) :
    ((expandChildren t o v b).mine v c).length = (o.mine v c).length + 1 := by
  have some' : (t.mem b).childN ≠ 0 := by
    intro none'
    rw [(wf.childN_eq_zero_iff b).mp none'] at child
    simp at child
  unfold expandChildren
  rw [if_neg some']
  simp only [found]
  change ((List.foldl (addTo t v (some x)) (o, []) _).1.mine v c).length = _
  rw [foldl_addTo_mine, wf.take_children, List.count_eq_one_of_mem (wf.mirrors.nodup b) child]

theorem expandChildren_leaf (wf : t.WellFormed) (leaf : t.children b = []) :
    expandChildren t o v b = o := by
  rw [expandChildren, if_pos ((wf.childN_eq_zero_iff b).mpr leaf)]

/-- A view that shows the branch is left as it is exactly if the branch has no children. -/
theorem expandChildren_sameTrees_iff (wf : t.WellFormed) (found : viewGetVbranch o v b = some x) :
    SameTrees o (expandChildren t o v b) ↔ t.children b = [] := by
  constructor
  · intro same
    rcases listed : t.children b with _ | ⟨c, rest⟩
    · rfl
    · have more := expandChildren_mine wf found (c := c) (by simp [listed])
      rw [Overlay.mine, same.vbranchList, ← Overlay.mine] at more
      omega
  · intro leaf
    rw [expandChildren_leaf wf leaf]
    exact ⟨rfl, rfl⟩

/-- The first expansion is in order exactly if the view does not list children of the branch yet. -/
theorem Overlay.Consistent.viewExpandTo (consistent : Consistent t o v) (wf : t.WellFormed)
    (reachable : t.Reachable b) :
    ∃ o' r, Treedb.viewExpandTo t o v b true = .ok (o', r) ∧
      (ExpandedWith t v b o o' ↔ ∀ x, StandsFor t o v b x → o.vchildren x = []) := by
  rcases (consistent_iff wf).mp consistent with ⟨shows, whole⟩
  have low := wf.reachable_iff.mp reachable
  have indexed := wf.indexed_of_anc low
  have root : viewGetVbranch o v t.branch = some (o.views v).vbranch := by
    rw [← stand_of_indexed wf.root_indexed, shows.root]
  rcases viewExpandTo_total root low true with ⟨⟨o', r⟩, run⟩
  refine ⟨o', r, run, ?_⟩
  constructor
  · intro expanded x stands
    have present := shows.standsFor_iff.mp stands
    by_contra unfolded
    rcases List.exists_mem_of_ne_nil _ unfolded with ⟨y, member⟩
    rcases (shows.shadow.mem_down present).mp member with ⟨c, child, _, shown⟩
    have found : viewGetVbranch o v b = some x := by
      rw [← stand_of_indexed indexed, present]
    have indexedC := wf.indexed_of_parent child
    have two := expandChildren_mine wf found (wf.mirrors.mem_iff.mpr child)
    rw [viewExpandTo_of_found found, Except.ok.injEq, Prod.mk.injEq] at run
    rw [run.1, shows.mine_eq indexedC, shown] at two
    have one := expanded.consistent.alone indexedC
    simp only [Option.toList_some, List.length_singleton] at two
    omega
  · intro folded
    have bare : ∀ x, stand t o v b = some x → ∀ c, t.parent c = some b → stand t o v c = none :=
      fun x present c child =>
        shows.hidden_of_folded wf present (folded x (standsFor_of_stand present)) child
    have searched := searched_of_anc (o := o) (v := v) wf low
    rcases shows.viewExpandTo wf searched indexed (whole.clear b) (fun _ => bare) run with
      ⟨after, enlarges, shown, ends⟩
    have whole' := whole.viewExpandTo shows wf searched indexed (fun _ => bare) run
    have there : stand t o' v b ≠ none := by
      rcases ends with ⟨top, _⟩ | ⟨there, _⟩
      · rw [← (anc_iff_of_root top).mp low, after.root]
        simp
      · exact there
    refine ⟨(consistent_iff wf).mpr ⟨after, whole'⟩, after.shown_iff.mpr there, ?_, ?_⟩
    · intro c member
      exact after.shown_iff.mpr
        ((shown c).mpr (.inr (.inr ⟨rfl, there, wf.mirrors.mem_iff.mp member⟩)))
    · intro c vb stands
      exact standsFor_of_stand (enlarges.kept (shows.standsFor_iff.mp stands))

end Twice

/-! ## The request -/

section Request

variable {m m₁ : Map} {t : Tree} {o o' : Overlay} {v : ViewPtr} {b c : BranchPtr}

theorem mapExpandTo_eq (wf : m.tree.WellFormed) (indexed : m.tree.Indexed b) (v : ViewPtr) :
    mapExpandTo m v (m.tree.mem b).id =
      (viewExpandTo m.tree m.overlay v b true).map fun s =>
        { m with overlay := s.1.queue (s.2.toList.map fun y => expandedMessage m.tree s.1 y 0) } := by
  simp only [mapExpandTo, branchIndexGet, wf.indexed_id indexed]
  cases viewExpandTo m.tree m.overlay v b true with
  | error e => rfl
  | ok s =>
      rcases s with ⟨o', _ | y⟩
      · simp [ok_bind, Except.map, Overlay.queue]
      · rfl

theorem Overlay.Consistent.queue (consistent : Consistent t o v) (wf : t.WellFormed)
    (msgs : List Message) : Consistent t (o.queue msgs) v := by
  rw [consistent_iff wf] at consistent ⊢
  exact ⟨consistent.1.queue msgs, consistent.2⟩

theorem shown_queue (msgs : List Message) : Shown t (o.queue msgs) v c ↔ Shown t o v c := by
  constructor
  · rintro ⟨vb, stands⟩
    exact ⟨vb, stands.indexed, stands.member, stands.view⟩
  · rintro ⟨vb, stands⟩
    exact ⟨vb, stands.indexed, stands.member, stands.view⟩

theorem Overlay.ExpandedWith.queue_iff (wf : t.WellFormed) (msgs : List Message) :
    ExpandedWith t v b o (o'.queue msgs) ↔ ExpandedWith t v b o o' := by
  constructor
  · intro expanded
    have plain := expanded.consistent
    rw [consistent_iff wf] at plain
    refine ⟨(consistent_iff wf).mpr ⟨?_, plain.2⟩, (shown_queue msgs).mp expanded.shown,
      fun c member => (shown_queue msgs).mp (expanded.children c member), ?_⟩
    · exact plain.1.remark ⟨fun _ => rfl, rfl, rfl, rfl, rfl, rfl⟩ (fun _ => rfl) fun _ => rfl
    · intro c vb stands
      have after := expanded.kept stands
      exact ⟨after.indexed, after.member, after.view⟩
  · intro expanded
    refine ⟨expanded.consistent.queue wf msgs, (shown_queue msgs).mpr expanded.shown,
      fun c member => (shown_queue msgs).mpr (expanded.children c member), ?_⟩
    intro c vb stands
    have after := expanded.kept stands
    exact ⟨after.indexed, after.member, after.view⟩

/-- One request for a branch is in order. -/
theorem mapExpandTo_once_iff (wf : m.tree.WellFormed) (consistent : Consistent m.tree m.overlay v)
    (reachable : m.tree.Reachable b) :
    ∃ m₁, mapExpandTo m v (m.tree.mem b).id = .ok m₁ ∧ m₁.tree = m.tree ∧
      (ExpandedWith m.tree v b m.overlay m₁.overlay ↔
        ∀ x, StandsFor m.tree m.overlay v b x → m.overlay.vchildren x = []) := by
  have indexed := wf.indexed_of_anc (wf.reachable_iff.mp reachable)
  rcases consistent.viewExpandTo wf reachable with ⟨o', r, run, iff⟩
  rw [mapExpandTo_eq wf indexed, run]
  exact ⟨_, rfl, rfl, (ExpandedWith.queue_iff wf _).trans iff⟩

/-- A second request for a branch changes nothing exactly if the branch has no children. -/
theorem mapExpandTo_again_iff (wf : m.tree.WellFormed) (indexed : m.tree.Indexed b)
    (consistent : Consistent m.tree m.overlay v) (shown : Shown m.tree m.overlay v b) :
    ∃ m₁, mapExpandTo m v (m.tree.mem b).id = .ok m₁ ∧
      (SameTrees m.overlay m₁.overlay ↔ m.tree.children b = []) := by
  have shows := ((consistent_iff wf).mp consistent).1
  rcases Option.ne_none_iff_exists'.mp (shows.shown_iff.mp shown) with ⟨x, present⟩
  have found : viewGetVbranch m.overlay v b = some x := by
    rw [← stand_of_indexed indexed, present]
  rw [mapExpandTo_eq wf indexed, viewExpandTo_of_found found]
  refine ⟨_, rfl, ?_⟩
  rw [← expandChildren_sameTrees_iff wf found]
  constructor
  · intro same
    exact ⟨same.vmem, same.vbranchList⟩
  · intro same
    exact ⟨same.vmem, same.vbranchList⟩

/--
A request for a branch with its children is safe, and safe to repeat, exactly if the branch has no
children. The first request alone is in order exactly if the view lists no children of the branch.
-/
theorem mapExpandTo_safe_iff (wf : m.tree.WellFormed) (consistent : Consistent m.tree m.overlay v)
    (reachable : m.tree.Reachable b) :
    ((∃ m₁ m₂, mapExpandTo m v (m.tree.mem b).id = .ok m₁ ∧
        ExpandedWith m.tree v b m.overlay m₁.overlay ∧
        mapExpandTo m₁ v (m.tree.mem b).id = .ok m₂ ∧ SameTrees m₁.overlay m₂.overlay) ↔
      m.tree.children b = []) ∧
    ((∃ m₁, mapExpandTo m v (m.tree.mem b).id = .ok m₁ ∧
        ExpandedWith m.tree v b m.overlay m₁.overlay) ↔
      ∀ x, StandsFor m.tree m.overlay v b x → m.overlay.vchildren x = []) := by
  have indexed := wf.indexed_of_anc (wf.reachable_iff.mp reachable)
  rcases mapExpandTo_once_iff wf consistent reachable with ⟨m₁, run, same, iff⟩
  have again : ExpandedWith m.tree v b m.overlay m₁.overlay →
      ∃ m₂, mapExpandTo m₁ v (m.tree.mem b).id = .ok m₂ ∧
        (SameTrees m₁.overlay m₂.overlay ↔ m.tree.children b = []) := by
    intro expanded
    rw [← same] at wf indexed ⊢
    exact mapExpandTo_again_iff wf indexed (same ▸ expanded.consistent) (same ▸ expanded.shown)
  refine ⟨⟨?_, ?_⟩, ⟨?_, ?_⟩⟩
  · rintro ⟨m₁', m₂, run', expanded, second, trees⟩
    rw [run, Except.ok.injEq] at run'
    subst run'
    rcases again expanded with ⟨m₂', second', iff'⟩
    rw [second, Except.ok.injEq] at second'
    subst second'
    exact iff'.mp trees
  · intro leaf
    have shows := ((consistent_iff wf).mp consistent).1
    have expanded := iff.mpr fun x stands => by
      have bound := shows.down_length_le wf (shows.standsFor_iff.mp stands)
      rw [leaf] at bound
      exact List.eq_nil_of_length_eq_zero (Nat.le_zero.mp bound)
    rcases again expanded with ⟨m₂, second, iff'⟩
    exact ⟨m₁, m₂, run, expanded, second, iff'.mpr leaf⟩
  · rintro ⟨m₁', run', expanded⟩
    rw [run, Except.ok.injEq] at run'
    subst run'
    exact iff.mp expanded
  · intro folded
    exact ⟨m₁, run, iff.mpr folded⟩

/-- A view of the root and its child is asked for the grandchild, which has no children. -/
theorem mapExpandTo_safe_iff_example :
    ∃ m m₁ m₂, Consistent m.tree m.overlay 0 ∧ mapExpandTo m 0 (m.tree.mem 2).id = .ok m₁ ∧
      ExpandedWith m.tree 0 2 m.overlay m₁.overlay ∧
      mapExpandTo m₁ 0 (m.tree.mem 2).id = .ok m₂ ∧ SameTrees m₁.overlay m₂.overlay := by
  rcases viewed_run with ⟨m₀, m, run, made, ⟨⟨wf, _, registered⟩, rooted⟩, _, first⟩
  have observed : ((mapCreateEmpty 1).run [.insert 0 1 2 0 [] 0 0, .insert 0 2 3 0 [] 0 0] >>=
      fun m => mapInitView m 7 0 0 [] 0 [] []).toOption.map (fun m =>
        (branchIndexGet m.tree 3, m.tree.children 2)) = some (some 2, []) := by
    decide +kernel
  rw [run, ok_bind, made] at observed
  simp only [Except.toOption, Option.map_some, Option.some.injEq, Prod.mk.injEq] at observed
  have reachable : m.tree.Reachable 2 := wf.reachable_iff.mpr (rooted 2 ⟨3, observed.1⟩)
  rcases (mapExpandTo_safe_iff wf (registered first) reachable).1.mpr observed.2 with
    ⟨m₁, m₂, expanded⟩
  exact ⟨m, m₁, m₂, registered first, expanded⟩

/-- A view that lists the child of the root is asked for the root. -/
theorem mapExpandTo_repeats_children :
    ¬∀ (m : Map) (v : ViewPtr) (b : BranchPtr), m.tree.WellFormed →
      Consistent m.tree m.overlay v → m.tree.Reachable b →
      ∃ m₁ m₂, mapExpandTo m v (m.tree.mem b).id = .ok m₁ ∧
        ExpandedWith m.tree v b m.overlay m₁.overlay ∧
        mapExpandTo m₁ v (m.tree.mem b).id = .ok m₂ ∧ SameTrees m₁.overlay m₂.overlay := by
  intro safe
  rcases viewed_run with ⟨m₀, m, run, made, ⟨⟨wf, _, registered⟩, _⟩, _, first⟩
  have observed : ((mapCreateEmpty 1).run [.insert 0 1 2 0 [] 0 0, .insert 0 2 3 0 [] 0 0] >>=
      fun m => mapInitView m 7 0 0 [] 0 [] []).toOption.map (fun m =>
        m.overlay.vchildren (m.overlay.views 0).vbranch) = some [⟨0, 1⟩] := by
    decide +kernel
  rw [run, ok_bind, made] at observed
  simp only [Except.toOption, Option.map_some, Option.some.injEq] at observed
  have view := registered first
  have reachable : m.tree.Reachable m.tree.branch := .refl
  rcases safe m 0 m.tree.branch wf view reachable with ⟨m₁, _, asked, expanded, _⟩
  rcases mapExpandTo_once_iff wf view reachable with ⟨m₁', asked', _, iff⟩
  rw [asked, Except.ok.injEq] at asked'
  subst asked'
  have folded := iff.mp expanded _ view.root
  simp [observed] at folded

end Request

/-! ## What the client hears -/

/-- The view shows a branch that it did not show before. -/
def Overlay.Creates (t : Tree) (v : ViewPtr) (o o' : Overlay) (c : BranchPtr) : Prop :=
  ¬Shown t o v c ∧ Shown t o' v c

/-- The message tells the client of the view about a subtree. -/
def Map.Queues (m m' : Map) (v : ViewPtr) (json : VbranchJson) : Prop :=
  ∃ parentId pos, m'.overlay.outQ =
    m.overlay.outQ ++ [.mapInsert (m.overlay.views v).id parentId pos json]

/-- A message is queued exactly if there is something to tell, and tells all of it. -/
structure Map.Hears (m m' : Map) (v : ViewPtr) : Prop where
  queued_iff : (∃ json, m.Queues m' v json) ↔ ∃ c, Creates m.tree v m.overlay m'.overlay c
  told : ∀ json, m.Queues m' v json → ∀ c, Creates m.tree v m.overlay m'.overlay c →
    ∃ e, (json.entries none).lookup (m.tree.mem c).id = some e

/-- The answer is the lowest vbranch that was there on the way up, if something was expanded. -/
structure Overlay.Answers (t : Tree) (v : ViewPtr) (b : BranchPtr) (o o' : Overlay)
    (r : Option VbranchPtr) : Prop where
  expanded : (∃ c, Creates t v o o' c) → ∃ e y, r = some y ∧ Anc t.parent b e ∧ StandsFor t o v e y ∧
    ∀ a, Anc t.parent b a → Shown t o v a → Anc t.parent e a
  unchanged : (¬∃ c, Creates t v o o' c) → r = none

section Heard

variable {want : Demands} {t : Tree} {o o' : Overlay} {v : ViewPtr} {a b c e : BranchPtr}
  {x y : VbranchPtr} {r : Option VbranchPtr} {m : Map}

/-- The end of the climb is below all that the view shows on the way up. -/
theorem FirstShown.nearest (first : FirstShown t o v b e y) (up : Anc t.parent b a)
    (there : stand t o v a ≠ none) : Anc t.parent e a := by
  rcases first.anc.total up with below | above
  · exact below
  · rcases anc_iff_eq_or_strictAnc.mp above with rfl | strict
    · exact anc_refl t.parent e
    · exact absurd (first.hidden up strict) there

/-- What is filled on the way up hangs below the end of the climb. -/
theorem FirstShown.anc_of_onClimb (first : FirstShown t o v b e y)
    (shows : Shows want t o v {t.branch}) (wf : t.WellFormed) (climb : OnClimb t o v b c) :
    Anc t.parent c e := by
  rcases climb with ⟨a, p, up, hidden, step, child⟩
  rcases up.total first.anc with above | below
  · rcases anc_iff_eq_or_strictAnc.mp above with rfl | strict
    · simp [first.present] at hidden
    · exact (anc_of_parent child).trans ((strictAnc_iff_of_parent step).mp strict)
  · exact absurd hidden (shows.present_above wf first.present below)

/-- What an expansion with children creates, and where its answer stands. -/
theorem Shows.viewExpandTo_creates (shows : Shows want t o v {t.branch}) (whole : Whole t o v)
    (wf : t.WellFormed) (low : Anc t.parent b t.branch)
    (folded : ∀ x, stand t o v b = some x → o.vchildren x = [])
    (run : Treedb.viewExpandTo t o v b true = .ok (o', r)) :
    Shows want t o' v {t.branch} ∧ Enlarges t v o o' ∧
      ((∃ c, Creates t v o o' c) ↔ stand t o v b = none ∨ t.children b ≠ []) ∧
      (b = t.branch ∧ r = none ∨ b ≠ t.branch ∧ ∃ e y, r = some y ∧ FirstShown t o v b e y ∧
        ∀ c, Creates t v o o' c → Anc t.parent c e) := by
  have indexed := wf.indexed_of_anc low
  have bare : ∀ x, stand t o v b = some x → ∀ c, t.parent c = some b → stand t o v c = none :=
    fun x present c child => shows.hidden_of_folded wf present (folded x present) child
  rcases shows.viewExpandTo wf (searched_of_anc wf low) indexed (whole.clear b) (fun _ => bare) run
    with ⟨after, enlarges, shown, ends⟩
  have creates : ∀ c, Creates t v o o' c ↔ stand t o v c = none ∧ stand t o' v c ≠ none := by
    intro c
    rw [Creates, shows.shown_iff, after.shown_iff, not_not]
  have there : stand t o' v b ≠ none := by
    rcases ends with ⟨top, _⟩ | ⟨there, _⟩
    · rw [← (anc_iff_of_root top).mp low, after.root]
      simp
    · exact there
  refine ⟨after, enlarges, ⟨?_, ?_⟩, ?_⟩
  · rintro ⟨c, made⟩
    rcases (creates c).mp made with ⟨hidden, new⟩
    rcases (shown c).mp new with old | climb | ⟨_, _, child⟩
    · exact absurd hidden old
    · left
      by_contra present
      rcases Option.ne_none_iff_exists'.mp present with ⟨x, present⟩
      exact shows.not_onClimb wf present climb
    · right
      exact List.ne_nil_of_mem (wf.mirrors.mem_iff.mpr child)
  · rintro (hidden | some')
    · exact ⟨b, (creates b).mpr ⟨hidden, there⟩⟩
    · rcases List.exists_mem_of_ne_nil _ some' with ⟨c, member⟩
      have child := wf.mirrors.mem_iff.mp member
      have hidden : stand t o v c = none := by
        cases present : stand t o v b with
        | none => exact shows.hidden_child wf present child
        | some x => exact bare x present c child
      exact ⟨c, (creates c).mpr ⟨hidden, (shown c).mpr (.inr (.inr ⟨rfl, there, child⟩))⟩⟩
  · by_cases isRoot : b = t.branch
    · subst isRoot
      have found : viewGetVbranch o v t.branch = some (o.views v).vbranch := by
        rw [← stand_of_indexed indexed, shows.root]
      rw [viewExpandTo_of_found found, if_pos wf.root_parent, Except.ok.injEq, Prod.mk.injEq] at run
      exact .inl ⟨rfl, run.2.symm⟩
    rcases ends with ⟨top, _⟩ | ⟨_, e, y, answer, first⟩
    · exact absurd ((anc_iff_of_root top).mp low).symm isRoot
    · refine .inr ⟨isRoot, e, y, answer, first, ?_⟩
      intro c made
      rcases (creates c).mp made with ⟨hidden, new⟩
      rcases (shown c).mp new with old | climb | ⟨_, _, child⟩
      · exact absurd hidden old
      · exact first.anc_of_onClimb shows wf climb
      · exact (anc_of_parent child).trans first.anc

/-- The subtree printed for a vbranch names every branch that the view shows below it. -/
theorem Shows.lookup_of_anc (shows : Shows want t o v {t.branch}) (wf : t.WellFormed)
    (present : stand t o v e = some y) (shown : stand t o v c ≠ none) (below : Anc t.parent c e) :
    ∃ entry, ((vbranchToJson t o y).entries none).lookup (t.mem c).id = some entry := by
  have inside : c ∈ shownBelow t o v {t.branch} e := by
    rw [shownBelow_root wf]
    exact ⟨shown, below⟩
  have inj : Set.InjOn (fun c => (t.mem c).id) (shownBelow t o v {t.branch} e) :=
    (shows.framed wf).inj.mono fun c member => member.1
  exact ⟨_, (shows.lookup_vbranchToJson wf present t inj none _ _).mpr ⟨c, inside, rfl, rfl⟩⟩

/-- The client hears what it should exactly if the climb has an answer where there is something new. -/
theorem hears_iff (wf : m.tree.WellFormed) (after : Shows want m.tree o' v {m.tree.branch})
    (enlarges : Enlarges m.tree v m.overlay o')
    (answer : ∀ y, r = some y → ∃ e, stand m.tree o' v e = some y ∧
      ∀ c, Creates m.tree v m.overlay o' c → Anc m.tree.parent c e) :
    m.Hears { m with
        overlay := o'.queue (r.toList.map fun y => expandedMessage m.tree o' y 0) } v ↔
      (r ≠ none ↔ ∃ c, Creates m.tree v m.overlay o' c) := by
  have creates : ∀ msgs c, Creates m.tree v m.overlay (o'.queue msgs) c ↔
      Creates m.tree v m.overlay o' c := by
    intro msgs c
    rw [Creates, Creates, shown_queue]
  cases r with
  | none =>
      have silent : ∀ json, ¬m.Queues { m with overlay := o'.queue [] } v json := by
        rintro json ⟨parentId, pos, outQ⟩
        have same : (o'.queue []).outQ = m.overlay.outQ := by
          rw [← enlarges.outQ]
          exact List.append_nil _
        rw [same] at outQ
        simp at outQ
      constructor
      · intro hears
        refine ⟨fun some' => absurd rfl some', ?_⟩
        rintro ⟨c, made⟩
        rcases hears.queued_iff.mpr ⟨c, (creates _ c).mpr made⟩ with ⟨json, queued⟩
        exact absurd queued (silent json)
      · intro agree
        refine ⟨⟨fun ⟨json, queued⟩ => absurd queued (silent json), ?_⟩,
          fun json queued => absurd queued (silent json)⟩
        rintro ⟨c, made⟩
        exact absurd rfl (agree.mpr ⟨c, (creates _ c).mp made⟩)
  | some y =>
      rcases answer y rfl with ⟨e, present, below⟩
      have outQ : (o'.queue [expandedMessage m.tree o' y 0]).outQ = m.overlay.outQ ++
          [.mapInsert (m.overlay.views v).id (m.tree.mem (o'.vmem y).branch).id 0
            (vbranchToJson m.tree o' y)] := by
        rw [Overlay.queue, expandedMessage, enlarges.outQ, view_of_stand present,
          enlarges.within.view_id]
      have queued : m.Queues { m with overlay := o'.queue [expandedMessage m.tree o' y 0] } v
          (vbranchToJson m.tree o' y) := ⟨_, _, outQ⟩
      constructor
      · intro hears
        rcases hears.queued_iff.mp ⟨_, queued⟩ with ⟨c, made⟩
        exact ⟨fun _ => ⟨c, (creates _ c).mp made⟩, by simp⟩
      · intro agree
        rcases agree.mp (by simp) with ⟨c, made⟩
        refine ⟨⟨fun _ => ⟨c, (creates _ c).mpr made⟩, fun _ => ⟨_, queued⟩⟩, ?_⟩
        rintro json ⟨parentId, pos, sent⟩ d new
        have sameJson : json = vbranchToJson m.tree o' y := by
          change (o'.queue [expandedMessage m.tree o' y 0]).outQ = _ at sent
          rw [outQ, List.append_cancel_left_eq] at sent
          simp only [List.cons.injEq, Message.mapInsert.injEq, and_true] at sent
          exact sent.2.2.2.symm
        rw [sameJson]
        have shownD := ((creates _ d).mp new).2
        exact after.lookup_of_anc wf present (after.shown_iff.mp shownD)
          (below d ((creates _ d).mp new))

/-- The answer of the climb is as its comment says exactly if it is there when something is new. -/
theorem answers_iff (shows : Shows want t o v {t.branch})
    (answer : ∀ y, r = some y → ∃ e, FirstShown t o v b e y) :
    Answers t v b o o' r ↔ (r ≠ none ↔ ∃ c, Creates t v o o' c) := by
  constructor
  · intro answers
    constructor
    · intro some'
      by_contra nothing
      exact some' (answers.unchanged nothing)
    · intro made
      rcases answers.expanded made with ⟨_, y, rfl, _⟩
      simp
  · intro agree
    constructor
    · intro made
      rcases Option.ne_none_iff_exists'.mp (agree.mpr made) with ⟨y, rfl⟩
      rcases answer y rfl with ⟨e, first⟩
      refine ⟨e, y, rfl, first.anc, standsFor_of_stand first.present, ?_⟩
      intro a up shown
      exact first.nearest up (shows.shown_iff.mp shown)
    · intro nothing
      by_contra some'
      exact nothing (agree.mp some')

/--
The client hears of an expansion, and of nothing else, exactly if it asks for a root without children
or for another branch that is hidden or has children. The answer of the climb is right in the same
cases.
-/
theorem mapExpandTo_heard_iff (wf : m.tree.WellFormed) (consistent : Consistent m.tree m.overlay v)
    (reachable : m.tree.Reachable b)
    (folded : ∀ x, StandsFor m.tree m.overlay v b x → m.overlay.vchildren x = []) :
    ∃ o' r m', viewExpandTo m.tree m.overlay v b true = .ok (o', r) ∧
      mapExpandTo m v (m.tree.mem b).id = .ok m' ∧
      (m.Hears m' v ↔ b = m.tree.branch ∧ m.tree.children b = [] ∨
        b ≠ m.tree.branch ∧ (¬Shown m.tree m.overlay v b ∨ m.tree.children b ≠ [])) ∧
      (Answers m.tree v b m.overlay o' r ↔ b = m.tree.branch ∧ m.tree.children b = [] ∨
        b ≠ m.tree.branch ∧ (¬Shown m.tree m.overlay v b ∨ m.tree.children b ≠ [])) := by
  rcases (consistent_iff wf).mp consistent with ⟨shows, whole⟩
  have low := wf.reachable_iff.mp reachable
  have indexed := wf.indexed_of_anc low
  have root : viewGetVbranch m.overlay v m.tree.branch = some (m.overlay.views v).vbranch := by
    rw [← stand_of_indexed wf.root_indexed, shows.root]
  rcases viewExpandTo_total root low true with ⟨⟨o', r⟩, run⟩
  rcases shows.viewExpandTo_creates whole wf low
    (fun x present => folded x (standsFor_of_stand present)) run with
    ⟨after, enlarges, created, answer⟩
  have agrees : (r ≠ none ↔ ∃ c, Creates m.tree v m.overlay o' c) ↔
      b = m.tree.branch ∧ m.tree.children b = [] ∨
        b ≠ m.tree.branch ∧ (¬Shown m.tree m.overlay v b ∨ m.tree.children b ≠ []) := by
    rw [created, shows.shown_iff, not_not]
    rcases answer with ⟨rfl, rfl⟩ | ⟨inner, e, y, rfl, _⟩
    · simp [shows.root]
    · simp [inner]
  have first : ∀ y, r = some y → ∃ e, FirstShown m.tree m.overlay v b e y ∧
      ∀ c, Creates m.tree v m.overlay o' c → Anc m.tree.parent c e := by
    rintro y rfl
    rcases answer with ⟨_, none'⟩ | ⟨_, e, y', same, first, below⟩
    · simp at none'
    · rw [Option.some.injEq] at same
      exact ⟨e, same ▸ first, below⟩
  refine ⟨o', r, _, run, by rw [mapExpandTo_eq wf indexed, run]; rfl, ?_, ?_⟩
  · rw [← agrees]
    apply hears_iff wf after enlarges
    intro y same
    rcases first y same with ⟨e, top, below⟩
    exact ⟨e, enlarges.kept top.present, below⟩
  · rw [← agrees]
    apply answers_iff shows
    intro y same
    rcases first y same with ⟨e, top, _⟩
    exact ⟨e, top⟩

/-- A view of the root and its child is asked for the grandchild, and the client hears of it. -/
theorem mapExpandTo_heard_iff_example :
    ∃ m m', Consistent m.tree m.overlay 0 ∧ mapExpandTo m 0 (m.tree.mem 2).id = .ok m' ∧
      m.Hears m' 0 := by
  rcases viewed_run with ⟨m₀, m, run, made, ⟨⟨wf, _, registered⟩, rooted⟩, _, first⟩
  have observed : ((mapCreateEmpty 1).run [.insert 0 1 2 0 [] 0 0, .insert 0 2 3 0 [] 0 0] >>=
      fun m => mapInitView m 7 0 0 [] 0 [] []).toOption.map (fun m =>
        (branchIndexGet m.tree 3, m.tree.branch, m.overlay.vbranchList 2)) =
      some (some 2, 0, []) := by
    decide +kernel
  rw [run, ok_bind, made] at observed
  simp only [Except.toOption, Option.map_some, Option.some.injEq, Prod.mk.injEq] at observed
  rcases observed with ⟨found, root, bare⟩
  have reachable : m.tree.Reachable 2 := wf.reachable_iff.mpr (rooted 2 ⟨3, found⟩)
  have hidden : ∀ x, ¬StandsFor m.tree m.overlay 0 2 x := by
    intro x stands
    have member := stands.member
    simp [bare] at member
  rcases mapExpandTo_heard_iff wf (registered first) reachable
    (fun x stands => absurd stands (hidden x)) with ⟨_, _, m', _, asked, heard, _⟩
  refine ⟨m, m', registered first, asked, heard.mpr (.inr ⟨by simp [root], .inl ?_⟩)⟩
  rintro ⟨x, stands⟩
  exact hidden x stands

/-- A view that lists the child of the root, folded, is asked for a child without children. -/
theorem mapExpandTo_tells_nothing :
    ¬∀ (m m' : Map) (v : ViewPtr) (b : BranchPtr), m.tree.WellFormed →
      Consistent m.tree m.overlay v → m.tree.Reachable b →
      (∀ x, StandsFor m.tree m.overlay v b x → m.overlay.vchildren x = []) →
      mapExpandTo m v (m.tree.mem b).id = .ok m' → m.Hears m' v := by
  intro hears
  have observed : ((mapCreateEmpty 1).run [.insert 0 1 2 0 [] 0 0] >>=
      fun m => mapInitView m 7 0 0 [] 0 [] []).toOption.map (fun m =>
        (viewIndexGet m.overlay 7, branchIndexGet m.tree 2, m.overlay.vbranchList 1)) =
      some (some 0, some 1, [⟨0, 1⟩]) := by
    decide +kernel
  have folded : ((mapCreateEmpty 1).run [.insert 0 1 2 0 [] 0 0] >>=
      fun m => mapInitView m 7 0 0 [] 0 [] []).toOption.map (fun m =>
        (m.overlay.vchildren ⟨0, 1⟩, m.tree.children 1, m.tree.parent 1)) =
      some ([], [], some 0) := by
    decide +kernel
  rcases observed_bind observed with ⟨m₀, m, run, made, seen⟩
  simp only [Prod.mk.injEq] at seen
  rcases seen with ⟨view, found, listed⟩
  rw [run, ok_bind, made] at folded
  simp only [Except.toOption, Option.map_some, Option.some.injEq, Prod.mk.injEq] at folded
  rcases folded with ⟨bare, leaf, step⟩
  have viewed := viewed_of_run (by simp [Call.EditsTree]) (by decide +kernel) run made
  have indexed : m.tree.Indexed 1 := ⟨2, found⟩
  have reachable := viewed.wf.reachable_iff.mpr (viewed.rooted 1 indexed)
  have got : viewGetVbranch m.overlay 0 1 = some ⟨0, 1⟩ := by
    rw [viewGetVbranch, listed]
    rfl
  have asked : mapExpandTo m 0 (m.tree.mem 1).id = .ok { m with
      overlay := m.overlay.queue [expandedMessage m.tree m.overlay ⟨0, 1⟩ 0] } := by
    rw [mapExpandTo_eq viewed.wf indexed, viewExpandTo_of_found got, step,
      expandChildren_leaf viewed.wf leaf]
    rfl
  have heard := hears m _ 0 1 viewed.wf (viewed.registered view) reachable
    (by
      intro x stands
      have member := stands.member
      rw [listed, List.mem_singleton] at member
      rw [member, bare]) asked
  rcases heard.queued_iff.mp ⟨_, _, _, rfl⟩ with ⟨c, old, new⟩
  exact old ((shown_queue _).mp new)

end Heard

end Treedb
