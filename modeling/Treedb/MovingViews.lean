import Treedb.Inserting
import Treedb.Moving
import Treedb.Outgoing
import Treedb.View.Climb

/-!
# Moves and views

A move visits every view before it changes the tree. In a state whose views are faithful a visit fails
only where a climb follows a null pointer above a branch that a delete left behind. So a move is
answered by the checks on the tree alone, if no climb of it ends there, and a move that is refused
changes nothing.
-/

namespace Treedb

open Forest Overlay Outcome Treedb.Tree

/-- The view shows the branch, and what is below it unless there is nothing. -/
def Overlay.Opens (t : Tree) (o : Overlay) (v : ViewPtr) (b : BranchPtr) : Prop :=
  ∃ x, StandsFor t o v b x ∧ (t.children b = [] ∨ o.vchildren x ≠ [])

/--
The climbs of a move in the view `v` end. A shown branch that moves out of sight has the view climb
from its new parent, and a hidden branch has it climb from both parents.
-/
structure Overlay.MoveMeets (t : Tree) (o : Overlay) (view : Option ViewPtr) (v : ViewPtr)
    (b opb npb : BranchPtr) : Prop where
  shown : Shown t o v b → ¬Opens t o v npb → t.parent npb = none ∨ Meets t o v npb
  hidden : ¬Shown t o v b → ¬Opens t o v npb → some v ≠ view →
    (Meets t o v opb ↔ Meets t o v npb)

/-! ## One view -/

section One

variable {want : Demands} {t : Tree} {o o' : Overlay} {view : Option ViewPtr} {v : ViewPtr}
  {vbr vb vnpb : VbranchPtr} {b opb npb : BranchPtr} {newParentId : UInt64} {pos : UInt16} {i : ℕ}

theorem vbranchDetach_length_le (o : Overlay) (x y : VbranchPtr) :
    ((vbranchDetach o x).vchildren y).length ≤ (o.vchildren y).length := by
  unfold vbranchDetach
  split
  · exact le_rfl
  · rename_i p _
    have kept : ((o.modify p fun z => { z with
        childList := (z.childList.filter fun c => c ≠ x).take (z.childList.length - 1) }).vchildren
          y).length ≤ (o.vchildren y).length := by
      rw [vchildren, modify_vmem]
      split
      · rename_i isP
        rw [isP]
        exact (List.length_take_le _ _).trans (Nat.sub_le _ _)
      · exact le_rfl
    refine le_trans (le_of_eq ?_) kept
    rw [vchildren, modify_vmem]
    split
    · rename_i isX
      rw [isX]
      rfl
    · rfl

/-- A vbranch is re-homed wherever the new list has room. -/
theorem moveVbranch_total (room : (o.vchildren vnpb).length < 65535) :
    ∃ o', Treedb.moveVbranch t o view vbr vb vnpb b npb pos = .ok o' := by
  rcases vbranchAdd_total (t := t) (x := vb)
    ((vbranchDetach_length_le o vb vnpb).trans_lt room) with ⟨o₁, linked⟩
  unfold Treedb.moveVbranch
  dsimp only
  rw [linked, ok_bind]
  split
  · exact ⟨_, rfl⟩
  · exact ⟨_, rfl⟩

theorem Shows.moveIntoView_total (shows : Shows want t o v {t.branch}) (wf : t.WellFormed)
    (room : (t.children npb).length < 65535) (above : stand t o v npb = some vnpb)
    (vbr : VbranchPtr) :
    ∃ o', Treedb.moveIntoView t o vbr vnpb b opb newParentId pos = .ok o' := by
  have short := (shows.down_length_le wf above).trans_lt room
  have old : vnpb ≠ ⟨vnpb.view, o.vnext⟩ := by
    intro same
    have early := shows.cell_lt above
    rw [same] at early
    exact Nat.lt_irrefl _ early
  rw [moveIntoView_eq]
  generalize kept : o.queue (leaveMessages t o vbr.view b opb) = o₁
  have cells : o₁.vmem = o.vmem ∧ o₁.vnext = o.vnext := by
    rw [← kept]
    exact ⟨rfl, rfl⟩
  have list : (vbranchIndexPut t (vbranchNew o₁ vnpb.view { branch := b, parent := some vnpb }).1
      vnpb.view ⟨vnpb.view, o₁.vnext⟩).vchildren vnpb = o.vchildren vnpb := by
    simp [vchildren, vbranchIndexPut, vbranchNew, cells, old]
  rw [← cells.2] at old
  rcases vbranchAdd_total (t := t) (by rw [list]; exact short) with ⟨o₂, linked⟩
  dsimp only
  rw [linked, ok_bind]
  exact ⟨_, rfl⟩

theorem Shows.moveExpanding_total (shows : Shows want t o v {t.branch}) (wf : t.WellFormed)
    (room : (t.children npb).length < 65535) (lowP : Anc t.parent npb t.branch)
    (own : vbr.view = v) (clear : Clear t o v npb)
    (folded : ∀ c, t.parent c = some npb → stand t o v c = none) :
    ∃ o', Treedb.moveExpanding t o view vbr vb b npb pos = .ok o' := by
  have root := shows.root
  rw [stand_of_indexed wf.root_indexed] at root
  have indexed := wf.indexed_of_anc lowP
  rcases viewExpandTo_total root lowP true with ⟨⟨o₁, r⟩, expanded⟩
  rcases shows.viewExpandTo wf (searched_of_anc wf lowP) indexed clear (fun _ _ _ => folded) expanded
    with ⟨after, enlarges, _, ends⟩
  unfold Treedb.moveExpanding
  rw [own, expanded, ok_bind]
  rcases ends with ⟨_, rfl⟩ | ⟨there, e, y, rfl, _⟩
  · exact ⟨_, rfl⟩
  · rcases Option.ne_none_iff_exists'.mp there with ⟨vnpb, above⟩
    have found : viewGetVbranch (o₁.push (expandedMessage t o₁ y pos.toNat)) v npb = some vnpb := by
      rw [stand_of_indexed indexed] at above
      exact above
    simp only [found]
    exact moveVbranch_total (((after.push _).down_length_le wf above).trans_lt room)

/-- Moving a shown branch out of sight fails exactly if the climb from the new parent does. -/
theorem Shows.moveExpanding_ok_iff (shows : Shows want t o v {t.branch}) (wf : t.WellFormed)
    (room : ∀ x, (t.children x).length < 65535) (indexed : t.Indexed npb) (own : vbr.view = v) :
    (∃ o', Treedb.moveExpanding t o view vbr vb b npb pos = .ok o') ↔
      t.parent npb = none ∨ Meets t o v npb := by
  rw [← viewExpandTo_ok_iff wf true]
  constructor
  · rintro ⟨o', run⟩
    rcases bind_eq_ok.mp run with ⟨s, expanded, _⟩
    exact ⟨s, own ▸ expanded⟩
  · rintro ⟨⟨o₁, r⟩, expanded⟩
    have climbs := viewExpandTo_climbs (n := 65534) wf (fun p => Nat.le_of_lt_succ (room p)) expanded
    unfold Treedb.moveExpanding
    rw [own, expanded, ok_bind]
    cases r with
    | none => exact ⟨_, rfl⟩
    | some y =>
        have inner : t.parent npb ≠ none := by
          intro top
          rw [Treedb.viewExpandTo, Treedb.expandPath, show (t.mem npb).parent = none from top] at expanded
          simp [ok_bind, pure_eq_ok] at expanded
        rcases Option.ne_none_iff_exists'.mp (viewExpandTo_attaches wf inner expanded) with
          ⟨vnpb, found⟩
        have found' : viewGetVbranch (o₁.push (expandedMessage t o₁ y pos.toNat)) v npb =
            some vnpb := found
        simp only [found']
        apply moveVbranch_total
        change (o₁.vchildren vnpb).length < 65535
        have member := List.mem_of_find?_eq_some found
        have named := view_of_viewGetVbranch found
        rcases climbs.added npb vnpb member with before | ⟨_, late, early⟩
        · have present := shows.attached indexed before named
          have list := shows.down_length_le wf present
          have bound := room npb
          rcases climbs.down vnpb (shows.cell_lt present) with same | short
          · rw [same]
            omega
          · omega
        · have short := climbs.short vnpb named late early
          omega

theorem Shows.opens_iff (shows : Shows want t o v {t.branch}) (wf : t.WellFormed)
    (indexed : t.Indexed npb) : Opens t o v npb ↔ moveDest t o v npb ≠ none := by
  rw [Option.ne_none_iff_exists']
  simp only [moveDest, Option.filter_eq_some_iff, Bool.not_eq_true', decide_eq_false_iff_not,
    not_and, Opens, shows.standsFor_iff, stand_of_indexed indexed]
  refine exists_congr fun x => and_congr_right fun found => ?_
  rw [← stand_of_indexed indexed] at found
  rw [shows.branch_eq found, ← wf.childN_eq_zero_iff, or_iff_not_imp_left]
  rfl

/-- Whether a view makes a move fail, up to the expansion of the view. -/
theorem Shows.moveInView_total_iff (shows : Shows want t o vbr.view {t.branch}) (wf : t.WellFormed)
    (room : (t.children npb).length < 65535) (indexed : t.Indexed npb)
    (step : t.parent b = some opb) :
    (∃ o', Treedb.moveInView t view b opb npb newParentId pos o vbr = .ok o') ↔
      (∀ vb, stand t o vbr.view b = some vb → ¬Opens t o vbr.view npb →
        ∃ o', Treedb.moveExpanding t o view vbr vb b npb pos = .ok o') ∧
      (stand t o vbr.view b = none → ¬Opens t o vbr.view npb → some vbr.view ≠ view →
        (Meets t o vbr.view opb ↔ Meets t o vbr.view npb)) := by
  rw [shows.opens_iff wf indexed, not_not, stand_of_indexed (wf.indexed_of_parent step),
    moveInView_eq]
  have above : ∀ vnpb, moveDest t o vbr.view npb = some vnpb →
      (o.vchildren vnpb).length < 65535 ∧ stand t o vbr.view npb = some vnpb := by
    intro vnpb dest
    have present : stand t o vbr.view npb = some vnpb := by
      rw [stand_of_indexed indexed, viewGetVbranch_of_moveDest dest]
    exact ⟨(shows.down_length_le wf present).trans_lt room, present⟩
  cases src : viewGetVbranch o vbr.view b with
  | some vb =>
      cases dest : moveDest t o vbr.view npb with
      | some vnpb =>
          simp only [reduceCtorEq, false_imp_iff, implies_true, and_true, iff_true]
          exact moveVbranch_total (above vnpb dest).1
      | none =>
          simp only [Option.some.injEq, forall_eq', true_imp_iff, reduceCtorEq, false_imp_iff,
            and_true]
  | none =>
      cases dest : moveDest t o vbr.view npb with
      | some vnpb =>
          simp only [reduceCtorEq, false_imp_iff, implies_true, and_true, iff_true]
          split
          · exact shows.moveIntoView_total wf room (above vnpb dest).2 vbr
          · exact ⟨_, rfl⟩
      | none =>
          simp only [reduceCtorEq, false_imp_iff, implies_true, true_imp_iff, true_and]
          split
          · rename_i other
            rw [imp_iff_right other, meets_iff_endpoint wf, meets_iff_endpoint wf]
            unfold Treedb.moveHidden
            rcases endpoint t o vbr.view opb with _ | source
            · rcases endpoint t o vbr.view npb with _ | destination
              · simp
              · simp
            · rcases endpoint t o vbr.view npb with _ | destination
              · simp
              · simp only [ne_eq, reduceCtorEq, not_false_eq_true, iff_true]
                split
                · exact ⟨_, rfl⟩
                · exact ⟨_, rfl⟩
          · rename_i asks
            exact iff_of_true ⟨_, rfl⟩ fun other => absurd other asks

/-- A view makes a move fail exactly if a climb in it does. -/
theorem Shows.moveInView_ok_iff (shows : Shows want t o vbr.view {t.branch}) (wf : t.WellFormed)
    (room : ∀ x, (t.children x).length < 65535) (indexed : t.Indexed npb)
    (step : t.parent b = some opb) :
    (∃ o', Treedb.moveInView t view b opb npb newParentId pos o vbr = .ok o') ↔
      MoveMeets t o view vbr.view b opb npb := by
  rw [shows.moveInView_total_iff wf (room npb) indexed step]
  have climb : ∀ vb, (∃ o', Treedb.moveExpanding t o view vbr vb b npb pos = .ok o') ↔
      t.parent npb = none ∨ Meets t o vbr.view npb :=
    fun _ => shows.moveExpanding_ok_iff wf room indexed rfl
  constructor
  · rintro ⟨expands, hidden⟩
    refine ⟨fun there closed => ?_, fun gone => hidden ?_⟩
    · rcases there with ⟨vb, stands⟩
      exact (climb vb).mp (expands vb (shows.standsFor_iff.mp stands) closed)
    · rwa [shows.shown_iff, not_not] at gone
  · rintro ⟨shown, hidden⟩
    refine ⟨fun vb present closed => ?_, fun absent => hidden ?_⟩
    · exact (climb vb).mpr (shown ⟨vb, standsFor_of_stand present⟩ closed)
    · rwa [shows.shown_iff, not_not]

theorem Shows.moveMeets_of_anc (shows : Shows want t o v {t.branch}) (wf : t.WellFormed)
    (lowO : Anc t.parent opb t.branch) (lowP : Anc t.parent npb t.branch) :
    MoveMeets t o view v b opb npb :=
  ⟨fun _ _ => .inr (shows.meets wf lowP),
    fun _ _ _ => iff_of_true (shows.meets wf lowO) (shows.meets wf lowP)⟩

/-- A view of reached branches does not make a move fail. -/
theorem Shows.moveInView_total (shows : Shows want t o vbr.view {t.branch}) (wf : t.WellFormed)
    (room : (t.children npb).length < 65535) (lowO : Anc t.parent opb t.branch)
    (lowP : Anc t.parent npb t.branch) (step : t.parent b = some opb)
    (clear : stand t o vbr.view b ≠ none → Clear t o vbr.view npb) :
    ∃ o', Treedb.moveInView t view b opb npb newParentId pos o vbr = .ok o' := by
  have indexed := wf.indexed_of_anc lowP
  refine (shows.moveInView_total_iff wf room indexed step).mpr ⟨?_, fun _ _ _ =>
    iff_of_true (shows.meets wf lowO) (shows.meets wf lowP)⟩
  intro vb present closed
  rw [shows.opens_iff wf indexed, not_not] at closed
  exact shows.moveExpanding_total wf room lowP rfl (clear (by simp [present]))
    fun c => shows.hidden_of_moveDest wf indexed closed

/-! What a visit does to other views. -/

theorem vbranchDetach_relinks (own : vb.view = v) (up : ∀ y, o.vparent vb = some y → y.view = v) :
    Relinks v o (vbranchDetach o vb) := by
  unfold vbranchDetach
  split
  · exact Relinks.refl v o
  · rename_i p above
    exact (relinks_modify o (up p above) rfl).trans (relinks_modify _ own rfl)

theorem moveVbranch_beside (own : vb.view = v) (ownParent : vnpb.view = v)
    (up : ∀ y, o.vparent vb = some y → y.view = v)
    (run : Treedb.moveVbranch t o view vbr vb vnpb b npb pos = .ok o') : Beside v o o' := by
  rcases bind_eq_ok.mp run with ⟨o₁, linked, run⟩
  have moved := ((vbranchDetach_relinks own up).trans
    (vbranchAdd_relinks own ownParent linked)).beside
  split at run
  · rw [← Except.ok.inj run]
    exact moved.trans (relinks_push o₁ v _).beside
  · rw [← Except.ok.inj run]
    exact moved

theorem Shows.moveInView_beside (shows : Shows .bare t o vbr.view {t.branch}) (wf : t.WellFormed)
    (allowed : (Edit.rehome b opb npb i).Allowed t)
    (run : Treedb.moveInView t view b opb npb newParentId pos o vbr = .ok o') :
    Beside vbr.view o o' := by
  have indexedB := wf.indexed_of_parent allowed.1
  rw [moveInView_eq] at run
  cases src : viewGetVbranch o vbr.view b with
  | some vb =>
      have present : stand t o vbr.view b = some vb := by
        rw [stand_of_indexed indexedB, src]
      have own := view_of_stand present
      have up : ∀ y, o.vparent vb = some y → y.view = vbr.view := by
        intro y above
        rcases shows.shadow.up_eq present (wf.ne_root allowed.1) with ⟨p, z, _, found, link⟩
        rw [above, Option.some.injEq] at link
        exact link ▸ view_of_stand found
      cases dest : moveDest t o vbr.view npb with
      | some vnpb =>
          simp only [src, dest] at run
          exact moveVbranch_beside own
            (view_of_viewGetVbranch (viewGetVbranch_of_moveDest dest)) up run
      | none =>
          simp only [src, dest] at run
          rcases bind_eq_ok.mp run with ⟨⟨o₁, r⟩, expanded, run⟩
          have first := viewExpandTo_beside expanded
          have climbs := viewExpandTo_climbs wf wf.children_length_le expanded
          cases r with
          | none =>
              rw [← Except.ok.inj run]
              exact first
          | some y =>
              dsimp only at run
              split at run
              · simp at run
              · rename_i vnpb found
                refine (first.trans (relinks_push o₁ vbr.view _).beside).trans
                  (moveVbranch_beside own (view_of_viewGetVbranch found) ?_ run)
                intro z above
                exact up z ((climbs.up vb (shows.cell_lt present)).symm.trans above)
  | none =>
      have absent : stand t o vbr.view b = none := by
        rw [stand_of_indexed indexedB, src]
      cases dest : moveDest t o vbr.view npb with
      | some vnpb =>
          simp only [src, dest] at run
          have above : stand t o vbr.view npb = some vnpb := by
            rw [stand_of_indexed allowed.2.1, viewGetVbranch_of_moveDest dest]
          split at run
          · exact (shows.moveIntoView wf allowed rfl absent above id run).2.1.toBeside
          · rw [← Except.ok.inj run]
            exact Beside.refl _ o
      | none =>
          simp only [src, dest] at run
          split at run
          · rcases moveHidden_cases run with ⟨msgs, rfl⟩
            exact (relinks_queue o vbr.view msgs).beside
          · rw [← Except.ok.inj run]
            exact Beside.refl _ o

end One

/-! ## All views -/

/--
Every view that shows the root is a shadow of the tree. If it shows `b`, then it shows no branch
without its siblings.
-/
structure Overlay.Movable (t : Tree) (o : Overlay) (b : BranchPtr) : Prop where
  shows : ∀ vbr ∈ o.vbranchList t.branch, Shows .bare t o vbr.view {t.branch}
  whole : ∀ vbr ∈ o.vbranchList t.branch, stand t o vbr.view b ≠ none → Whole t o vbr.view

/-- Where a view shows the branch, the new parent is below the root. -/
def Overlay.Leads (t : Tree) (o : Overlay) (b npb : BranchPtr) : Prop :=
  ∀ vbr ∈ o.vbranchList t.branch, stand t o vbr.view b ≠ none → Anc t.parent npb t.branch

section All

variable {t : Tree} {o o' : Overlay} {view : Option ViewPtr} {v : ViewPtr} {b opb npb : BranchPtr}
  {vb : VbranchPtr} {newParentId : UInt64} {pos : UInt16} {i : ℕ}

theorem Overlay.Keeps.whole (keeps : Keeps v o o') : Whole t o' v ↔ Whole t o v := by
  rw [Whole, Whole, keeps.stand t]

theorem Overlay.Keeps.meets (keeps : Keeps v o o') : Meets t o' v b ↔ Meets t o v b := by
  simp only [Meets, keeps.viewGetVbranch]

theorem Overlay.Keeps.standsFor (keeps : Keeps v o o') :
    StandsFor t o' v b vb ↔ StandsFor t o v b vb := by
  have same : ∀ o, StandsFor t o v b vb ↔ t.Indexed b ∧ vb ∈ o.mine v b := by
    intro o
    rw [mem_mine]
    exact ⟨fun stands => ⟨stands.indexed, stands.member, stands.view⟩,
      fun ⟨indexed, member, own⟩ => ⟨indexed, member, own⟩⟩
  rw [same, same, keeps.mine]

theorem Overlay.Keeps.opens (keeps : Keeps v o o') : Opens t o' v b ↔ Opens t o v b := by
  refine exists_congr fun x => ?_
  rw [keeps.standsFor]
  refine and_congr_right fun stands => ?_
  rw [Overlay.vchildren, keeps.vmem x stands.view, ← Overlay.vchildren]

theorem Overlay.Keeps.moveMeets (keeps : Keeps v o o') :
    MoveMeets t o' view v b opb npb ↔ MoveMeets t o view v b opb npb := by
  have shown : Shown t o' v b ↔ Shown t o v b := exists_congr fun _ => keeps.standsFor
  constructor
  · rintro ⟨climbs, hidden⟩
    rw [shown, keeps.opens, keeps.meets] at climbs
    rw [shown, keeps.opens, keeps.meets, keeps.meets] at hidden
    exact ⟨climbs, hidden⟩
  · rintro ⟨climbs, hidden⟩
    rw [← shown, ← keeps.opens, ← keeps.meets] at climbs
    rw [← shown, ← keeps.opens, ← keeps.meets, ← keeps.meets] at hidden
    exact ⟨climbs, hidden⟩

/-- The views make a move fail exactly if a climb in one of them does. -/
theorem moveInView_all_ok_iff (wf : t.WellFormed)
    (shows : ∀ vbr ∈ o.vbranchList t.branch, Shows .bare t o vbr.view {t.branch})
    (room : ∀ x, (t.children x).length < 65535) (allowed : (Edit.rehome b opb npb i).Allowed t)
    (view : Option ViewPtr) (newParentId : UInt64) (pos : UInt16) :
    (∃ o', (o.vbranchList t.branch).foldlM (moveInView t view b opb npb newParentId pos) o =
      .ok o') ↔ ∀ vbr ∈ o.vbranchList t.branch, MoveMeets t o view vbr.view b opb npb := by
  have nodup := nodup_views fun vb member => (shows vb member).alone wf.root_indexed
  constructor
  · rintro ⟨o', run⟩ vbr member
    rcases (foldlM_rounds Keeps.refl (fun _ _ _ _ first => first.trans) nodup
      (by
        intro x o₁ o₂ listed keeps moved w other
        have shows₁ := (shows x listed).keeps keeps
        exact (shows₁.moveInView_beside wf allowed moved).keeps other) run).1 vbr member with
      ⟨o₁, o₂, keeps, moved, _⟩
    rw [← keeps.moveMeets]
    exact (((shows vbr member).keeps keeps).moveInView_ok_iff wf room allowed.2.1 allowed.1).mp
      ⟨o₂, moved⟩
  · intro meets
    refine foldlM_keyed_total Keeps.refl (fun _ _ _ _ first => first.trans) nodup ?_
    intro vbr o₁ member keeps
    have shows₁ := (shows vbr member).keeps keeps
    rcases (shows₁.moveInView_ok_iff wf room allowed.2.1 allowed.1).mpr
      (keeps.moveMeets.mpr (meets vbr member)) with ⟨o₂, moved⟩
    exact ⟨o₂, moved, fun w other => (shows₁.moveInView_beside wf allowed moved).keeps other⟩

/-- A view that waits for its round is ready for it. -/
theorem Overlay.Movable.round {vbr : VbranchPtr} {o₁ : Overlay} (movable : Movable t o b)
    (wf : t.WellFormed) (leads : Leads t o b npb) (step : t.parent b = some opb)
    (member : vbr ∈ o.vbranchList t.branch) (keeps : Keeps vbr.view o o₁) :
    Shows .bare t o₁ vbr.view {t.branch} ∧
      (viewGetVbranch o₁ vbr.view b ≠ none → moveDest t o₁ vbr.view npb = none →
        Expandable t o₁ vbr.view npb) := by
  have shows := (movable.shows vbr member).keeps keeps
  refine ⟨shows, fun src dest => ?_⟩
  have there := src
  rw [keeps.viewGetVbranch, ← stand_of_indexed (wf.indexed_of_parent step)] at there
  have low := leads vbr member there
  exact shows.expandable wf (fun top => ((anc_iff_of_root top).mp low).symm) step
    (searched_of_anc wf low) ((keeps.whole.mpr (movable.whole vbr member there)).clear npb) src dest

theorem Overlay.Movable.loop_total (movable : Movable t o b) (wf : t.WellFormed) (rooted : t.Rooted)
    (room : (t.children npb).length < 65535) (allowed : (Edit.rehome b opb npb i).Allowed t)
    (view : Option ViewPtr) (newParentId : UInt64) (pos : UInt16) :
    ∃ o', (o.vbranchList t.branch).foldlM (moveInView t view b opb npb newParentId pos) o =
      .ok o' := by
  have indexedO := rooted.parent_indexed wf allowed.1
  refine foldlM_keyed_total Keeps.refl (fun _ _ _ _ first => first.trans)
    (nodup_views fun vb member => (movable.shows vb member).alone wf.root_indexed) ?_
  intro vbr o₁ member keeps
  have shows := (movable.shows vbr member).keeps keeps
  rcases shows.moveInView_total wf room (rooted opb indexedO) (rooted npb allowed.2.1) allowed.1
    (fun there => by
      rw [keeps.stand] at there
      exact (keeps.whole.mpr (movable.whole vbr member there)).clear npb) with ⟨o₂, moved⟩
  exact ⟨o₂, moved, fun w other => (shows.moveInView_beside wf allowed moved).keeps other⟩

/-- Every view has its round, in which it is still as before, and no view appears. -/
theorem Overlay.Movable.rounds (movable : Movable t o b) (wf : t.WellFormed)
    (allowed : (Edit.rehome b opb npb i).Allowed t)
    (run : (o.vbranchList t.branch).foldlM (moveInView t view b opb npb newParentId pos) o =
      .ok o') :
    (∀ vbr ∈ o.vbranchList t.branch, ∃ o₁ o₂, (Keeps vbr.view o o₁ ∧ o.outQ <+: o₁.outQ) ∧
      moveInView t view b opb npb newParentId pos o₁ vbr = .ok o₂ ∧
      Keeps vbr.view o₂ o' ∧ o₂.outQ <+: o'.outQ) ∧
    ∀ vbr ∈ o'.vbranchList t.branch, ∃ y ∈ o.vbranchList t.branch, y.view = vbr.view := by
  rcases foldlM_rounds (F := fun w o o' => Keeps w o o' ∧ o.outQ <+: o'.outQ)
    (fun w o => ⟨Keeps.refl w o, List.prefix_rfl⟩)
    (fun _ _ _ _ first second => ⟨first.1.trans second.1, first.2.trans second.2⟩)
    (nodup_views fun vb member => (movable.shows vb member).alone wf.root_indexed)
    (by
      intro vbr o₁ o₂ member keeps moved
      have shows := (movable.shows vbr member).keeps keeps.1
      exact fun w other => ⟨(shows.moveInView_beside wf allowed moved).keeps other,
        (moveInView_appends moved).kept⟩) run with ⟨rounds, kept⟩
  refine ⟨rounds, ?_⟩
  intro vbr member
  by_contra unvisited
  have out : vbr.view ∉ (o.vbranchList t.branch).map VbranchPtr.view := by
    intro inside
    rcases List.mem_map.mp inside with ⟨y, listed, own⟩
    exact unvisited ⟨y, listed, own⟩
  have mine : vbr ∈ o'.mine vbr.view t.branch := mem_mine.mpr ⟨member, rfl⟩
  rw [(kept _ out).1.mine] at mine
  exact unvisited ⟨vbr, (mem_mine.mp mine).1, rfl⟩

/-- What a move does to a view of the state before it, seen in the state after it. -/
theorem Overlay.Movable.turned {vbr : VbranchPtr} {o₁ o₂ : Overlay} (movable : Movable t o b)
    (wf : t.WellFormed) (leads : Leads t o b npb) (allowed : (Edit.rehome b opb npb i).Allowed t)
    (member : vbr ∈ o.vbranchList t.branch) (before : Keeps vbr.view o o₁)
    (moved : moveInView t view b opb npb newParentId pos o₁ vbr = .ok o₂)
    (later : Keeps vbr.view o₂ o') :
    Shows .bare ((Edit.rehome b opb npb i).apply t) o' vbr.view {t.branch} ∧
      (Whole t o vbr.view → Whole ((Edit.rehome b opb npb i).apply t) o' vbr.view ∨
        some vbr.view = view ∧ stand ((Edit.rehome b opb npb i).apply t) o' vbr.view b = none) := by
  have sameRoot := (Edit.rehome b opb npb i).apply_branch t
  rcases movable.round wf leads allowed.1 member before with ⟨shows, expands⟩
  rcases shows.moveInView wf allowed expands id moved with ⟨after, _, kept⟩
  refine ⟨sameRoot ▸ (sameRoot.symm ▸ after).keeps later, ?_⟩
  intro whole
  rw [later.whole, later.stand]
  exact kept (before.whole.mpr whole)

/-- After a move in a state of whole views, the branch can be moved again. -/
theorem Overlay.Movable.loop (movable : Movable t o b)
    (whole : ∀ vbr ∈ o.vbranchList t.branch, Whole t o vbr.view) (wf : t.WellFormed)
    (leads : Leads t o b npb) (allowed : (Edit.rehome b opb npb i).Allowed t)
    (run : (o.vbranchList t.branch).foldlM (moveInView t view b opb npb newParentId pos) o =
      .ok o') : Movable ((Edit.rehome b opb npb i).apply t) o' b := by
  rcases movable.rounds wf allowed run with ⟨rounds, visited⟩
  have turned : ∀ vbr ∈ o'.vbranchList t.branch,
      Shows .bare ((Edit.rehome b opb npb i).apply t) o' vbr.view {t.branch} ∧
        (Whole ((Edit.rehome b opb npb i).apply t) o' vbr.view ∨
          some vbr.view = view ∧
            stand ((Edit.rehome b opb npb i).apply t) o' vbr.view b = none) := by
    intro vbr member
    rcases visited vbr member with ⟨y, listed, own⟩
    rcases rounds y listed with ⟨o₁, o₂, ⟨before, _⟩, moved, later, _⟩
    rcases movable.turned wf leads allowed listed before moved later with ⟨after, kept⟩
    rw [← own]
    exact ⟨after, kept (whole y listed)⟩
  constructor
  · rw [(Edit.rehome b opb npb i).apply_branch t]
    exact fun vbr member => (turned vbr member).1
  · rw [(Edit.rehome b opb npb i).apply_branch t]
    intro vbr member there
    rcases (turned vbr member).2 with still | ⟨_, hidden⟩
    · exact still
    · exact absurd hidden there

theorem Tree.Rooted.leads (rooted : t.Rooted) (indexed : t.Indexed npb) (o : Overlay)
    (b : BranchPtr) : Leads t o b npb :=
  fun _ _ _ => rooted npb indexed

theorem Overlay.SetFaithful.movable (wf : t.WellFormed)
    (faithful : ∀ vbr ∈ o.vbranchList t.branch, SetFaithful t o vbr.view) (b : BranchPtr) :
    Movable t o b where
  shows := fun vbr member => ((setFaithful_iff wf).mp (faithful vbr member)).1
  whole := fun vbr member _ => ((setFaithful_iff wf).mp (faithful vbr member)).2

end All

/-! ## The answer -/

/-- The request names a branch, its parent, and a new parent that does not lie below the branch. -/
structure Tree.MoveFits (t : Tree) (newParentId oldParentId branchId : UInt64)
    (b opb npb : BranchPtr) : Prop where
  branch : branchIndexGet t branchId = some b
  notRoot : b ≠ t.branch
  parent : t.parent b = some opb
  current : (t.mem opb).id = oldParentId
  target : branchIndexGet t newParentId = some npb
  outside : ¬Anc t.parent npb b

/-- The request names a branch and a new parent, but its old parent is stale or it asks for a cycle. -/
structure Tree.MoveClashes (t : Tree) (newParentId oldParentId branchId : UInt64)
    (b opb npb : BranchPtr) : Prop where
  branch : branchIndexGet t branchId = some b
  parent : t.parent b = some opb
  target : branchIndexGet t newParentId = some npb
  clash : (t.mem opb).id ≠ oldParentId ∨ Anc t.parent npb b

section Answer

variable {m m' : Map} {view : Option ViewPtr} {b opb npb : BranchPtr}
  {newParentId oldParentId branchId : UInt64} {pos : UInt16} {accepted : Bool}

theorem moveFits_iff (wf : m.tree.WellFormed) :
    m.tree.MoveFits newParentId oldParentId branchId b opb npb ↔
      moveCheck m.tree newParentId oldParentId branchId = .accept b opb npb := by
  rw [moveCheck_accept wf]
  constructor
  · intro fits
    exact ⟨fits.branch, fits.parent, fits.target, fits.current, fits.outside⟩
  · rintro ⟨found, step, target, current, outside⟩
    refine ⟨found, ?_, step, current, target, outside⟩
    exact wf.ne_root step

/-- A move that passes the checks fails only where a view makes it fail. -/
theorem move_ok_iff_views (wf : m.tree.WellFormed) (room : (m.tree.children npb).length < 65535)
    (accept : moveCheck m.tree newParentId oldParentId branchId = .accept b opb npb)
    (view : Option ViewPtr) (pos : UInt16) :
    (∃ m', move m view newParentId oldParentId branchId pos = .ok (m', true)) ↔
      ∃ o', (m.overlay.vbranchList m.tree.branch).foldlM
        (moveInView m.tree view b opb npb newParentId pos) m.overlay = .ok o' := by
  rcases (moveCheck_accept wf).mp accept with ⟨_, step, target, _, apart⟩
  have indexed : m.tree.Indexed npb := ⟨_, target⟩
  have allowed := rehome_allowed wf room step indexed apart pos
  simp only [move, accept]
  constructor
  · rintro ⟨m', run⟩
    rcases bind_eq_ok.mp run with ⟨o', looped, _⟩
    exact ⟨o', looped⟩
  · rintro ⟨o', looped⟩
    simp only [looped, ok_bind, wf.moveBranch_eq step indexed apart, if_neg allowed.2.2.2.1.ne]
    exact ⟨_, rfl⟩

/-- A move that passes the checks is made exactly if the climbs of the views end. -/
theorem move_ok_iff (wf : m.tree.WellFormed) (room : ∀ x, (m.tree.children x).length < 65535)
    (shows : ∀ vbr ∈ m.overlay.vbranchList m.tree.branch,
      Shows .bare m.tree m.overlay vbr.view {m.tree.branch})
    (accept : moveCheck m.tree newParentId oldParentId branchId = .accept b opb npb)
    (view : Option ViewPtr) (pos : UInt16) :
    (∃ m', move m view newParentId oldParentId branchId pos = .ok (m', true)) ↔
      ∀ vbr ∈ m.overlay.vbranchList m.tree.branch,
        MoveMeets m.tree m.overlay view vbr.view b opb npb := by
  rcases (moveCheck_accept wf).mp accept with ⟨_, step, target, _, apart⟩
  rw [move_ok_iff_views wf (room npb) accept]
  exact moveInView_all_ok_iff wf shows room
    (rehome_allowed wf (room npb) step ⟨_, target⟩ apart pos) view newParentId pos

/-- The same where there is room and all branches are reached. -/
theorem move_total (wf : m.tree.WellFormed) (rooted : m.tree.Rooted)
    (movable : Movable m.tree m.overlay b) (room : (m.tree.children npb).length < 65535)
    (accept : moveCheck m.tree newParentId oldParentId branchId = .accept b opb npb)
    (view : Option ViewPtr) (pos : UInt16) :
    ∃ m', move m view newParentId oldParentId branchId pos = .ok (m', true) := by
  rcases (moveCheck_accept wf).mp accept with ⟨_, step, target, _, apart⟩
  rw [move_ok_iff_views wf room accept]
  exact movable.loop_total wf rooted room (rehome_allowed wf room step ⟨_, target⟩ apart pos) view
    newParentId pos

/--
A move is accepted exactly if the branch and its new parent are known, the branch is below the old
parent and not the root, and the new parent is outside of its subtree. A move that is refused changes
nothing; only the client that asks for a clashing move is told where the branch is.
-/
def Map.AnswersMove (m : Map) (view : Option ViewPtr) (newParentId oldParentId branchId : UInt64)
    (pos : UInt16) : Prop :=
  ∃ m' accepted, move m view newParentId oldParentId branchId pos = .ok (m', accepted) ∧
    (accepted = true ↔
      ∃ b opb npb, m.tree.MoveFits newParentId oldParentId branchId b opb npb) ∧
    (accepted = false →
      m' = m ∧ (∀ v b opb npb, view = some v →
        ¬m.tree.MoveClashes newParentId oldParentId branchId b opb npb) ∨
      ∃ v b opb npb, view = some v ∧
        m.tree.MoveClashes newParentId oldParentId branchId b opb npb ∧
        m' = { m with overlay := m.overlay.push (.mapMove (m.overlay.views v).id
          (m.tree.mem opb).id branchId ((m.tree.children opb).idxOf b) true) })

/-- A move is answered by the checks, exactly if all climbs of a move that passes them end. -/
theorem move_answers_iff (wf : m.tree.WellFormed)
    (room : ∀ x, (m.tree.children x).length < 65535)
    (faithful : ∀ vbr ∈ m.overlay.vbranchList m.tree.branch,
      SetFaithful m.tree m.overlay vbr.view)
    (view : Option ViewPtr) (newParentId oldParentId branchId : UInt64) (pos : UInt16) :
    m.AnswersMove view newParentId oldParentId branchId pos ↔
      ∀ b opb npb, m.tree.MoveFits newParentId oldParentId branchId b opb npb →
        ∀ vbr ∈ m.overlay.vbranchList m.tree.branch,
          MoveMeets m.tree m.overlay view vbr.view b opb npb := by
  have shows := fun vbr member => ((setFaithful_iff wf).mp (faithful vbr member)).1
  have unfit : (∀ b opb npb, moveCheck m.tree newParentId oldParentId branchId ≠ .accept b opb npb) →
      ∀ b opb npb, ¬m.tree.MoveFits newParentId oldParentId branchId b opb npb :=
    fun refused b opb npb fits => refused b opb npb ((moveFits_iff wf).mp fits)
  unfold Map.AnswersMove
  cases check : moveCheck m.tree newParentId oldParentId branchId with
  | refuse =>
      have none' := unfit (by simp [check])
      refine iff_of_true ⟨m, false, by simp [move, check], ?_, fun _ => .inl ⟨rfl, ?_⟩⟩
        fun b opb npb fits => absurd fits (none' b opb npb)
      · simpa using none'
      · intro v b opb npb _ clashes
        have retried := (moveCheck_retry wf).mpr
          ⟨clashes.branch, clashes.parent, npb, clashes.target, clashes.clash⟩
        simp [check] at retried
  | retry b opb =>
      have none' := unfit (by simp [check])
      refine iff_of_true ?_ fun b opb npb fits => absurd fits (none' b opb npb)
      rcases (moveCheck_retry wf).mp check with ⟨found, step, npb, target, clash⟩
      cases view with
      | none => exact ⟨m, false, by simp [move, check], by simpa using none', fun _ => .inl
          ⟨rfl, by simp⟩⟩
      | some v =>
          refine ⟨_, false, by rw [move, check], by simpa using none', fun _ => .inr ⟨v, b, opb, npb,
            rfl, ⟨found, step, target, clash⟩, ?_⟩⟩
          rw [wf.branchGetPos_eq step, (wf.index_spec found).1]
  | accept b opb npb =>
      have fits := (moveFits_iff wf).mpr check
      have ends := move_ok_iff wf room shows check view pos
      constructor
      · rintro ⟨m', accepted, run, _⟩ b' opb' npb' fits'
        have same := (moveFits_iff wf).mp fits'
        rw [check, MoveCheck.accept.injEq] at same
        rcases same with ⟨rfl, rfl, rfl⟩
        rw [(move_of_accept wf check run).2.2] at run
        exact ends.mp ⟨m', run⟩
      · intro meets
        rcases ends.mpr (meets b opb npb fits) with ⟨m', run⟩
        exact ⟨m', true, run, iff_of_true rfl ⟨b, opb, npb, fits⟩, by simp⟩

/-- In a map with a view, a grandchild of the root that is not shown moves to the root. -/
theorem move_answers_iff_example :
    ∃ m : Map, (∃ vbr, vbr ∈ m.overlay.vbranchList m.tree.branch) ∧
      (∃ b opb npb, m.tree.MoveFits 1 2 3 b opb npb) ∧ m.AnswersMove (some 0) 1 2 3 0 := by
  rcases viewed_run with ⟨m₀, m, run, made, viewed, next, _⟩
  have observed : ((mapCreateEmpty 1).run [.insert 0 1 2 0 [] 0 0, .insert 0 2 3 0 [] 0 0] >>=
      fun m => mapInitView m 7 0 0 [] 0 [] []).toOption.map (fun m =>
        (moveCheck m.tree 1 2 3, m.overlay.vbranchList m.tree.branch)) =
      some (.accept 2 1 0, [⟨0, 0⟩]) := by
    decide +kernel
  rw [run, ok_bind, made] at observed
  simp only [Except.toOption, Option.map_some, Option.some.injEq, Prod.mk.injEq] at observed
  rcases observed with ⟨check, views⟩
  have room := viewed.wf.children_length_lt (by omega)
  refine ⟨m, ⟨⟨0, 0⟩, by simp [views]⟩, ⟨2, 1, 0, (moveFits_iff viewed.wf).mpr check⟩, ?_⟩
  refine (move_answers_iff viewed.wf room viewed.setFaithful (some 0) 1 2 3 0).mpr ?_
  intro b opb npb fits vbr member
  exact ((viewed.setFaithful vbr member).shows viewed.wf).moveMeets_of_anc viewed.wf
    (viewed.rooted opb (viewed.rooted.parent_indexed viewed.wf fits.parent))
    (viewed.rooted npb ⟨_, fits.target⟩)

/-- A root with a child that is shown and a branch that a delete left behind. -/
theorem leftBehind_run :
    ∃ m₀ m, (mapCreateEmpty 1).run [.insert 0 1 2 0 [] 0 0, .insert 0 2 3 0 [] 0 0,
        .insert 0 2 4 1 [] 0 0, .delete 0 2] = .ok m₀ ∧
      mapInitView m₀ 7 0 0 [] 0 [] [] = .ok m ∧ m.Pictured ∧
      (∀ x, (m.tree.children x).length < 65535) ∧ moveCheck m.tree 4 1 3 = .accept 2 0 3 ∧
      m.overlay.vbranchList 0 = [⟨0, 0⟩] ∧ m.overlay.vbranchList 2 = [⟨0, 1⟩] ∧
      m.overlay.vbranchList 3 = [] ∧ m.tree.branch = 0 := by
  have observed : ((mapCreateEmpty 1).run [.insert 0 1 2 0 [] 0 0, .insert 0 2 3 0 [] 0 0,
      .insert 0 2 4 1 [] 0 0, .delete 0 2] >>= fun m => mapInitView m 7 0 0 [] 0 [] []).toOption.map
        (fun m => (m.tree.next, moveCheck m.tree 4 1 3, m.tree.branch,
          [0, 2, 3].map m.overlay.vbranchList)) =
      some (4, .accept 2 0 3, 0, [[⟨0, 0⟩], [⟨0, 1⟩], []]) := by
    decide +kernel
  rcases observed_bind observed with ⟨m₀, m, run, made, seen⟩
  simp only [Prod.mk.injEq, List.map_cons, List.map_nil, List.cons.injEq] at seen
  rcases seen with ⟨next, check, root, list₀, list₂, list₃, _⟩
  rcases pictured_of_run (by simp [Call.EditsTree]) run made with ⟨_, pictured⟩
  exact ⟨m₀, m, run, made, pictured, pictured.wf.children_length_lt (by omega), check, list₀, list₂,
    list₃, root⟩

/-- A shown branch moves below a branch that a delete left behind: the climb of the view falls off. -/
theorem move_below_leftBehind :
    ¬∀ (m : Map) (view : Option ViewPtr) (newParentId oldParentId branchId : UInt64) (pos : UInt16),
      m.tree.WellFormed → (∀ x, (m.tree.children x).length < 65535) →
      (∀ vbr ∈ m.overlay.vbranchList m.tree.branch, SetFaithful m.tree m.overlay vbr.view) →
      m.AnswersMove view newParentId oldParentId branchId pos := by
  intro answers
  rcases leftBehind_run with ⟨m₀, m, run, made, pictured, room, _⟩
  have fails : ((mapCreateEmpty 1).run [.insert 0 1 2 0 [] 0 0, .insert 0 2 3 0 [] 0 0,
      .insert 0 2 4 1 [] 0 0, .delete 0 2] >>= fun m => mapInitView m 7 0 0 [] 0 [] []).toOption.map
        (fun m => (move m none 4 1 3 0).toBool) = some false := by
    decide +kernel
  rw [run, ok_bind, made] at fails
  simp only [Except.toOption, Option.map_some, Option.some.injEq] at fails
  rcases answers m none 4 1 3 0 pictured.wf room pictured.setFaithful with ⟨m', accepted, moved, _⟩
  simp [moved, Except.toBool] at fails

end Answer

end Treedb
