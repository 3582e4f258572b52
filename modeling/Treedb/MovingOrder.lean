import Treedb.FaithfulMoves
import Treedb.View.Unborn

/-!
# The order of siblings after a move

A vbranch is put among its new siblings at the position of its branch. A move edits the views first,
so this is the position that the branch has below its old parent, cut to the length of the new list.
The tree is edited afterwards, at the position that was asked for. The two lists agree exactly if
these two numbers agree.
-/

namespace Treedb

open Forest Overlay Outcome Treedb.Tree

theorem map_erase_of_inj {α β : Type} [DecidableEq α] [DecidableEq β] {f : α → β} {l : List α} {a : α}
    (inj : ∀ x ∈ l, f x = f a → x = a) : (l.erase a).map f = (l.map f).erase (f a) := by
  induction l with
  | nil => rfl
  | cons x l ih =>
      by_cases isA : x = a
      · subst isA
        simp
      · have other : f x ≠ f a := fun same => isA (inj x List.mem_cons_self same)
        have rest := ih fun y member => inj y (List.mem_cons_of_mem _ member)
        simp [isA, other, rest]

/-- The message puts the branch at place `pos` below its new parent. -/
def Message.Places (viewId : UInt32) (parentId branchId : UInt64) (pos : ℕ) : Message → Prop
  | .mapMove view parent branch place retry =>
      view = viewId ∧ parent = parentId ∧ branch = branchId ∧ place = pos ∧ retry = false
  | .mapInsert view parent place (.node id ..) =>
      view = viewId ∧ parent = parentId ∧ id = branchId ∧ place = pos
  | _ => False

section Lists

variable {want : Demands} {t : Tree} {o o' : Overlay} {view : Option ViewPtr} {v : ViewPtr}
  {vbr vb vnpb y : VbranchPtr} {b opb npb : BranchPtr} {newParentId : UInt64} {pos : UInt16} {i : ℕ}

/-- The new siblings of `b`, with `b` at the place it has below its old parent. -/
def Tree.placedEarly (t : Tree) (b opb npb : BranchPtr) : List BranchPtr :=
  ((t.children npb).erase b).insertIdx
    (min ((t.children opb).idxOf b) ((t.children npb).erase b).length) b

/-- A vbranch that lists all its children lists them in the order of the tree. -/
theorem Shows.branches_eq (shows : Shows want t o v {t.branch}) (order : want.order)
    (wf : t.WellFormed) (present : stand t o v b = some y)
    (all : ∀ c, t.parent c = some b → stand t o v c ≠ none) :
    o.branches (o.vchildren y) = t.children b := by
  have listed : ∀ bs : List BranchPtr, (∀ c ∈ bs, stand t o v c ≠ none) →
      o.branches (bs.filterMap (stand t o v)) = bs := by
    intro bs shown
    induction bs with
    | nil => rfl
    | cons c bs ih =>
        rcases Option.ne_none_iff_exists'.mp (shown c List.mem_cons_self) with ⟨x, found⟩
        have rest := ih fun d member => shown d (List.mem_cons_of_mem _ member)
        rw [List.filterMap_cons_some found, Overlay.branches, List.map_cons, shows.branch_eq found]
        exact congrArg (c :: ·) rest
  rw [shows.vchildren_eq order wf present]
  exact listed _ fun c member => all c (wf.mirrors.mem_iff.mp member)

theorem Shows.allOf {tops : Set BranchPtr} (shows : Shows want t o v tops)
    (present : stand t o v b = some y) : AllOf v (o.vchildren y) := by
  intro x member
  rcases (shows.shadow.mem_down present).mp member with ⟨c, _, _, found⟩
  exact view_of_stand found

/-- The new siblings of a vbranch after it moved, as branches. -/
theorem Shows.moveVbranch_branches (shows : Shows want t o v {t.branch}) (order : want.order)
    (wf : t.WellFormed) (allowed : (Edit.rehome b opb npb i).Allowed t) (own : vbr.view = v)
    (present : stand t o v b = some vb) (above : stand t o v npb = some vnpb)
    (all : ∀ c, t.parent c = some npb → stand t o v c ≠ none)
    (run : Treedb.moveVbranch t o view vbr vb vnpb b npb pos = .ok o') :
    AllOf v (o'.vchildren vnpb) ∧ o'.branches (o'.vchildren vnpb) = t.placedEarly b opb npb := by
  have low : b ≠ t.branch := wf.ne_root allowed.1
  have apart : npb ≠ b := by
    rintro rfl
    exact allowed.2.2.1 (anc_refl t.parent npb)
  rcases shows.bare.moveVbranch wf allowed own present above id run with ⟨after, _, stands, _⟩
  refine ⟨after.allOf (b := npb) (by rw [← above, ← stands]; rfl), ?_⟩
  have same : ∀ x ∈ vb :: o.vchildren vnpb, (o'.vmem x).branch = (o.vmem x).branch := by
    intro x member
    have shown : ∃ c, stand t o v c = some x := by
      rcases List.mem_cons.mp member with rfl | member
      · exact ⟨b, present⟩
      · rcases (shows.shadow.mem_down above).mp member with ⟨c, _, _, found⟩
        exact ⟨c, found⟩
    rcases shown with ⟨c, found⟩
    have found' : stand ((Edit.rehome b opb npb i).apply t) o' v c = some x := by
      rw [← stands] at found
      exact found
    rw [after.branch_eq found', shows.branch_eq found]
  have erased : o.branches ((o.vchildren vnpb).erase vb) = (t.children npb).erase b := by
    rw [← shows.branches_eq order wf above all, ← shows.branch_eq present]
    apply map_erase_of_inj
    intro x member sameBranch
    rcases (shows.shadow.mem_down above).mp member with ⟨c, _, _, found⟩
    rw [shows.branch_eq found, shows.branch_eq present] at sameBranch
    rw [sameBranch, present] at found
    exact (Option.some.inj found).symm
  have length : ((o.vchildren vnpb).erase vb).length = ((t.children npb).erase b).length := by
    rw [← erased]
    exact (List.length_map _).symm
  have branches : o'.branches (((o.vchildren vnpb).erase vb).insertIdx
      (min ((t.children opb).idxOf b) ((t.children npb).erase b).length) vb) =
        o.branches (((o.vchildren vnpb).erase vb).insertIdx
          (min ((t.children opb).idxOf b) ((t.children npb).erase b).length) vb) := by
    apply List.map_congr_left
    intro x member
    apply same
    rcases List.eq_or_mem_of_mem_insertIdx member with rfl | member
    · exact List.mem_cons_self
    · exact List.mem_cons_of_mem _ (List.mem_of_mem_erase member)
  rw [shows.moveVbranch_vchildren wf low apart present above run above, if_pos rfl, placedIn,
    wf.branchGetPos_eq allowed.1, insertPos_nat, length, branches, Overlay.branches,
    List.map_insertIdx, shows.branch_eq present, ← Overlay.branches, erased, placedEarly]

/-- The siblings of a branch that came into view, as branches. -/
theorem Shows.moveIntoView_branches (shows : Shows want t o v {t.branch}) (order : want.order)
    (wf : t.WellFormed) (allowed : (Edit.rehome b opb npb i).Allowed t) (own : vbr.view = v)
    (absent : stand t o v b = none) (above : stand t o v npb = some vnpb)
    (all : ∀ c, t.parent c = some npb → stand t o v c ≠ none)
    (run : Treedb.moveIntoView t o vbr vnpb b opb newParentId pos = .ok o') :
    AllOf v (o'.vchildren vnpb) ∧ o'.branches (o'.vchildren vnpb) = t.placedEarly b opb npb := by
  rcases shows.bare.moveIntoView wf allowed own absent above id run with ⟨after, _, stands, _⟩
  have apart : npb ≠ b := by
    rintro rfl
    simp [absent] at above
  have above' : stand ((Edit.rehome b opb npb i).apply t) o' v npb = some vnpb := by
    change stand t o' v npb = some vnpb
    rw [stands, Function.update_of_ne apart, above]
  refine ⟨after.allOf above', ?_⟩
  have found : stand ((Edit.rehome b opb npb i).apply t) o' v b = some ⟨v, o.vnext⟩ := by
    change stand t o' v b = some ⟨v, o.vnext⟩
    rw [stands, Function.update_self]
  have out : b ∉ t.children npb := fun member => all b (wf.mirrors.mem_iff.mp member) absent
  have cell := shows.cell_lt above
  have ne : (⟨v, o.vnext⟩ : VbranchPtr) ≠ vnpb := by
    rintro rfl
    exact lt_irrefl _ cell
  rw [moveIntoView_eq, own, view_of_stand above] at run
  rcases bind_eq_ok.mp run with ⟨o₂, linked, run⟩
  change vbranchAdd t (vbranchIndexPut t (vbranchNew (o.queue (leaveMessages t o v b opb)) v
    { branch := b, parent := some vnpb }).1 v ⟨v, o.vnext⟩) ⟨v, o.vnext⟩ vnpb = .ok o₂ at linked
  have listed : (vbranchIndexPut t (vbranchNew (o.queue (leaveMessages t o v b opb)) v
      { branch := b, parent := some vnpb }).1 v ⟨v, o.vnext⟩).vchildren vnpb = o.vchildren vnpb := by
    change (Function.update o.vmem ⟨v, o.vnext⟩ _ vnpb).childList = (o.vmem vnpb).childList
    rw [Function.update_of_ne ne.symm]
  have short : (o.vchildren vnpb).length ≤ 65535 := by
    have bound := shows.down_length_le wf above
    have most := wf.children_length_le npb
    omega
  rcases vbranchAdd_spec rfl (view_of_stand above) ne (by rw [listed]; exact short) linked with
    ⟨_, _, lists, _⟩
  have list : o'.vchildren vnpb = (o.vchildren vnpb).insertIdx
      (insertPos (branchGetPos t b) (o.vchildren vnpb).length) ⟨v, o.vnext⟩ := by
    have kept : o'.vchildren vnpb = o₂.vchildren vnpb := by
      rw [← Except.ok.inj run]
      change (Function.update o₂.vmem ⟨v, o.vnext⟩ _ vnpb).childList = (o₂.vmem vnpb).childList
      rw [Function.update_of_ne ne.symm]
    rw [kept, lists, if_pos rfl, linkPos, listed]
    congr 3
    change (Function.update o.vmem ⟨v, o.vnext⟩ _ ⟨v, o.vnext⟩).branch = b
    rw [Function.update_self]
  have old := shows.branches_eq order wf above all
  have same : o'.branches (o.vchildren vnpb) = o.branches (o.vchildren vnpb) := by
    apply List.map_congr_left
    intro x member
    rcases (shows.shadow.mem_down above).mp member with ⟨c, _, _, shown⟩
    have other : c ≠ b := by
      rintro rfl
      simp [absent] at shown
    have shown' : stand ((Edit.rehome b opb npb i).apply t) o' v c = some x := by
      change stand t o' v c = some x
      rw [stands, Function.update_of_ne other, shown]
    rw [after.branch_eq shown', shows.branch_eq shown]
  have length : (o.vchildren vnpb).length = ((t.children npb).erase b).length := by
    rw [List.erase_of_not_mem out, ← old]
    exact (List.length_map _).symm
  rw [list, Overlay.branches, List.map_insertIdx, after.branch_eq found, ← Overlay.branches, same,
    old, wf.branchGetPos_eq allowed.1, insertPos_nat, length, placedEarly, List.erase_of_not_mem out]

/-- The vbranch is put into the list of another one than its parent. -/
theorem moveVbranch_into {x z : VbranchPtr} (own : vbr.view = v) (ownB : vb.view = v)
    (ownX : x.view = v) (ownZ : z.view = v) (link : o.vparent vb = some z) (apart : x ≠ z)
    (ne : vb ≠ x) (short : (o.vchildren x).length ≤ 65535)
    (run : Treedb.moveVbranch t o view vbr vb x b npb pos = .ok o') :
    Relinks v o o' ∧ o'.vchildren x = (o.vchildren x).insertIdx (o.linkPos t vb x) vb ∧
      o'.outQ = o.outQWith (some v ≠ view) (mapMoveMessage t o v npb b pos) := by
  rcases bind_eq_ok.mp run with ⟨o₁, linked, run⟩
  have loose : Relinks v o (vbranchDetach o vb) := by
    apply vbranchDetach_relinks ownB
    intro y above
    rw [link, Option.some.injEq] at above
    exact above ▸ ownZ
  have kept : (vbranchDetach o vb).vchildren x = o.vchildren x ∧
      (vbranchDetach o vb).outQ = o.outQ := by
    have other : vb ≠ x := ne
    rw [vbranchDetach, show (o.vmem vb).parent = some z from link]
    refine ⟨?_, rfl⟩
    simp only [Overlay.vchildren, modify_vmem, if_neg apart, if_neg ne.symm]
  rcases vbranchAdd_spec ownB ownX ne (by rw [kept.1]; exact short) linked with
    ⟨relinks, outQ, lists, _⟩
  have place : (vbranchDetach o vb).linkPos t vb x = o.linkPos t vb x := by
    rw [linkPos, kept.1, loose.branch, linkPos]
  have list : o₁.vchildren x = (o.vchildren x).insertIdx (o.linkPos t vb x) vb := by
    rw [lists, if_pos rfl, kept.1, place]
  have moved := loose.trans relinks
  by_cases other : some vbr.view ≠ view
  · rw [if_pos other, pure_eq_ok, Except.ok.injEq] at run
    rw [own] at other
    rw [← run, outQWith, if_pos other]
    refine ⟨moved.trans (relinks_push o₁ v _), list, ?_⟩
    rw [Overlay.push, outQ, kept.2, own, mapMoveMessage, moved.views, mapMoveMessage]
  · rw [if_neg other, pure_eq_ok, Except.ok.injEq] at run
    rw [own] at other
    rw [← run, outQWith, if_neg other]
    exact ⟨moved, list, outQ.trans kept.2⟩

/--
The view shows the branch below its new parent, at the place that it had below its old one, and its
client is told the place that was asked for.
-/
structure Overlay.Lands (t : Tree) (view : Option ViewPtr) (v : ViewPtr) (b opb npb : BranchPtr)
    (newParentId : UInt64) (pos : ℕ) (o o' : Overlay) : Prop where
  shown : viewGetVbranch o' v b ≠ none
  listed : ∃ y, viewGetVbranch o' v npb = some y ∧ AllOf v (o'.vchildren y) ∧
    o'.branches (o'.vchildren y) = t.placedEarly b opb npb
  told : some v ≠ view → ∃ sent msg, o'.outQ = o.outQ ++ sent ∧ msg ∈ sent ∧
    msg.Places (o.views v).id newParentId (t.mem b).id pos

/-- A view is not expanded to a branch without a parent that it hides. -/
theorem moveExpanding_eq_self (top : t.parent npb = none)
    (hidden : viewGetVbranch o vbr.view npb = none)
    (run : Treedb.moveExpanding t o view vbr vb b npb pos = .ok o') : o' = o := by
  rcases bind_eq_ok.mp run with ⟨s, expanded, run⟩
  rw [Treedb.viewExpandTo, Treedb.expandPath, show (t.mem npb).parent = none from top, ok_bind,
    pure_eq_ok, Except.ok.injEq] at expanded
  rw [← expanded] at run
  simp only [if_true, pure_eq_ok, Except.ok.injEq] at run
  rw [← run, Treedb.expandChildren]
  simp [hidden]

/-- A view that is expanded beyond what it shows lists the branch below its new parent. -/
theorem Shows.moveExpanding_lands (shows : Shows want t o v {t.branch}) (wf : t.WellFormed)
    (allowed : (Edit.rehome b opb npb i).Allowed t) (own : vbr.view = v)
    (made : ∀ a, ∀ y ∈ o.mine v a, y.cell < o.vnext) (known : (t.mem npb).id = newParentId)
    (present : stand t o v b = some vb) (hidden : viewGetVbranch o v npb = none)
    (inner : t.parent npb ≠ none)
    (run : Treedb.moveExpanding t o view vbr vb b npb pos = .ok o') :
    Lands t view v b opb npb newParentId pos.toNat o o' := by
  have ownB := view_of_stand present
  have early := shows.cell_lt present
  rcases bind_eq_ok.mp run with ⟨⟨o₁, r⟩, expanded, run⟩
  rw [own] at expanded
  have climbs := viewExpandTo_climbs wf wf.children_length_le expanded
  rcases viewExpandTo_arrives wf made hidden inner expanded with ⟨ends, x, arrives⟩
  rcases Option.ne_none_iff_exists'.mp ends with ⟨e, rfl⟩
  have outQ₁ := viewExpandTo_outQ expanded
  have found : viewGetVbranch (o₁.push (expandedMessage t o₁ e pos.toNat)) vbr.view npb = some x :=
    own ▸ arrives.found
  simp only [found] at run
  rcases shows.shadow.up_eq present (wf.ne_root allowed.1) with ⟨p, z, step, above, link⟩
  have link₁ : o₁.vparent vb = some z := (climbs.up vb early).trans link
  have stood : (o₁.vmem vb).branch = b := (climbs.branch vb early).trans (shows.branch_eq present)
  have apart : x ≠ z := by
    rintro rfl
    exact absurd (shows.cell_lt above) (Nat.not_lt.mpr arrives.late)
  have ne : vb ≠ x := by
    rintro rfl
    exact absurd early (Nat.not_lt.mpr arrives.late)
  have length : (o₁.vchildren x).length = (t.children npb).length := by
    rw [← arrives.lists]
    exact (List.length_map _).symm
  have short : (o₁.vchildren x).length ≤ 65535 := length ▸ wf.children_length_le npb
  rcases moveVbranch_into (o := o₁.push (expandedMessage t o₁ e pos.toNat)) own ownB
    (view_of_viewGetVbranch arrives.found) (view_of_stand above) link₁ apart ne short run with
    ⟨relinks, list, outQ⟩
  have place : (o₁.push (expandedMessage t o₁ e pos.toNat)).linkPos t vb x =
      min ((t.children opb).idxOf b) (t.children npb).length := by
    rw [← length, ← insertPos_nat, ← wf.branchGetPos_eq allowed.1, ← stood]
    rfl
  have out : b ∉ t.children npb := by
    intro member
    have same := wf.mirrors.mem_iff.mp member
    rw [step, Option.some.injEq] at same
    rw [same, stand_of_indexed allowed.2.1, hidden] at above
    simp at above
  have inside : o₁.linkPos t vb x ≤ (o₁.vchildren x).length := insertPos_le _ _
  have branches : o'.branches (o'.vchildren x) =
      (o₁.branches (o₁.vchildren x)).insertIdx (o₁.linkPos t vb x) b := by
    have same : ∀ list, o'.branches list = o₁.branches list :=
      fun list => List.map_congr_left fun y _ => relinks.branch y
    rw [list, same, Overlay.branches, List.map_insertIdx, stood]
    rfl
  have kept : ∀ c, viewGetVbranch o' v c = viewGetVbranch o₁ v c := by
    intro c
    rw [viewGetVbranch, relinks.vbranchList]
    rfl
  refine ⟨?_, ⟨x, ?_, ?_, ?_⟩, ?_⟩
  · rw [kept, climbs.attaches.found (x := vb)]
    · simp
    · rw [← stand_of_indexed (wf.indexed_of_parent allowed.1), present]
  · rw [kept, arrives.found]
  · intro y member
    rw [list] at member
    rcases (List.mem_insertIdx inside).mp member with rfl | member
    · exact ownB
    · exact (arrives.own y member).1
  · rw [branches, arrives.lists, placedEarly, List.erase_of_not_mem out]
    exact congrArg (fun k => (t.children npb).insertIdx k b) place
  · intro other
    rw [outQWith, if_pos other, Overlay.push, outQ₁, List.append_assoc] at outQ
    refine ⟨_, _, outQ, List.mem_cons_of_mem _ (List.mem_singleton_self _), ?_, known, rfl, rfl, rfl⟩
    exact climbs.view_id v

/-- A view that is expanded to what it can show lists the branch below its new parent. -/
theorem Shows.moveFolded_lands (shows : Shows want t o v {t.branch}) (order : want.order)
    (wf : t.WellFormed) (allowed : (Edit.rehome b opb npb i).Allowed t) (own : vbr.view = v)
    (known : (t.mem npb).id = newParentId) (present : stand t o v b = some vb)
    (expandable : Expandable t o v npb) (dest : moveDest t o v npb = none)
    (run : Treedb.moveExpanding t o view vbr vb b npb pos = .ok o') :
    Lands t view v b opb npb newParentId pos.toNat o o' := by
  have indexedB := wf.indexed_of_parent allowed.1
  have indexedP := allowed.2.1
  have folded := fun c => shows.hidden_of_moveDest wf indexedP dest (c := c)
  rcases shows.moveExpanding_stages wf expandable.searched indexedP own expandable.clear
    (fun _ _ => folded) expandable.inner run with
    ⟨o₁, _, x, vnpb, _, _, after, enlarges, shown, above, moved⟩
  have pushed := relinks_push o₁ v (expandedMessage t o₁ x pos.toNat)
  have before := enlarges.kept present
  rw [← pushed.stand t v] at above before
  rcases (after.push _).bare.moveVbranch wf allowed own before above id moved with
    ⟨_, _, stands, outQ⟩
  refine ⟨?_, ⟨vnpb, ?_, ?_⟩, ?_⟩
  · rw [← stand_of_indexed indexedB, stands, before]
    simp
  · rw [← stand_of_indexed indexedP, stands, above]
  · apply (after.push _).moveVbranch_branches order wf allowed own before above _ moved
    intro c child
    rw [pushed.stand t v]
    exact (shown c).mpr (.inr (.inr child))
  · intro other
    rw [outQWith, if_pos other, mapMoveMessage, pushed.views, enlarges.within.view_id,
      Overlay.push, enlarges.outQ, List.append_assoc] at outQ
    exact ⟨_, _, outQ, List.mem_cons_of_mem _ (List.mem_singleton_self _), rfl, known, rfl, rfl, rfl⟩

/-- A view that shows the new parent's children lists the branch that comes into view with them. -/
theorem Shows.moveIntoView_lands (shows : Shows want t o v {t.branch}) (order : want.order)
    (wf : t.WellFormed) (allowed : (Edit.rehome b opb npb i).Allowed t) (own : vbr.view = v)
    (absent : stand t o v b = none)
    (above : stand t o v npb = some vnpb) (all : ∀ c, t.parent c = some npb → stand t o v c ≠ none)
    (run : Treedb.moveIntoView t o vbr vnpb b opb newParentId pos = .ok o') :
    Lands t view v b opb npb newParentId pos.toNat o o' := by
  rcases shows.bare.moveIntoView wf allowed own absent above id run with
    ⟨after, _, stands, _, o₁, sameVmem, _, outQ⟩
  have apart : npb ≠ b := by
    rintro rfl
    exact allowed.2.2.1 (anc_refl t.parent npb)
  have found : stand t o' v b = some ⟨v, o.vnext⟩ := by
    rw [stands, Function.update_self]
  refine ⟨?_, ⟨vnpb, ?_, ?_⟩, ?_⟩
  · rw [← stand_of_indexed (wf.indexed_of_parent allowed.1), found]
    simp
  · rw [← stand_of_indexed allowed.2.1, stands, Function.update_of_ne apart, above]
  · exact shows.moveIntoView_branches order wf allowed own absent above all run
  · intro _
    rw [List.append_assoc] at outQ
    refine ⟨_, _, outQ, List.mem_append_right _ (List.mem_singleton_self _), ?_⟩
    have branch : (o₁.vmem ⟨v, o.vnext⟩).branch = b := by
      rw [← sameVmem]
      exact after.branch_eq found
    have id : (t.mem (o₁.vmem ⟨v, o.vnext⟩).branch).id = (t.mem b).id := by
      rw [branch]
    cases depth : o₁.vnext with
    | zero =>
        rw [vbranchToJson, depth, vbranchToJsonLoop]
        exact ⟨rfl, rfl, id, rfl⟩
    | succ n =>
        rw [vbranchToJson, depth, vbranchToJsonLoop]
        exact ⟨rfl, rfl, id, rfl⟩

/-- A move brings the branch below its new parent in this view. -/
def Overlay.ShowsMoved (t : Tree) (o : Overlay) (view : Option ViewPtr) (v : ViewPtr)
    (b npb : BranchPtr) : Prop :=
  Shown t o v b ∧ (Opens t o v npb ∨ t.parent npb ≠ none) ∨
    ¬Shown t o v b ∧ Opens t o v npb ∧ some v ≠ view

/-- A view that shows the branch and the new parent after its round lists one below the other. -/
theorem Shows.moveInView_lands (shows : Shows want t o vbr.view {t.branch}) (order : want.order)
    (whole : Whole t o vbr.view) (wf : t.WellFormed)
    (made : ∀ a, ∀ y ∈ o.mine vbr.view a, y.cell < o.vnext)
    (allowed : (Edit.rehome b opb npb i).Allowed t) (known : (t.mem npb).id = newParentId)
    (run : Treedb.moveInView t view b opb npb newParentId pos o vbr = .ok o') :
    (ShowsMoved t o view vbr.view b npb →
      Lands t view vbr.view b opb npb newParentId pos.toNat o o') ∧
    (viewGetVbranch o' vbr.view b ≠ none → viewGetVbranch o' vbr.view npb ≠ none →
      ShowsMoved t o view vbr.view b npb) := by
  have indexedB := wf.indexed_of_parent allowed.1
  have indexedP := allowed.2.1
  have low : b ≠ t.branch := wf.ne_root allowed.1
  have places : (mapMoveMessage t o vbr.view npb b pos).Places (o.views vbr.view).id newParentId
      (t.mem b).id pos.toNat := ⟨rfl, known, rfl, rfl, rfl⟩
  rw [ShowsMoved, shows.shown_iff, shows.opens_iff wf indexedP]
  rw [moveInView_eq] at run
  cases src : viewGetVbranch o vbr.view b with
  | some vb =>
      have present : stand t o vbr.view b = some vb := by
        rw [stand_of_indexed indexedB, src]
      cases dest : moveDest t o vbr.view npb with
      | some vnpb =>
          simp only [src, dest] at run
          have above : stand t o vbr.view npb = some vnpb := by
            rw [stand_of_indexed indexedP, viewGetVbranch_of_moveDest dest]
          rcases shows.bare.moveVbranch wf allowed rfl present above id run with
            ⟨_, _, stands, outQ⟩
          refine ⟨fun _ => ⟨?_, ⟨vnpb, ?_, ?_⟩, ?_⟩, fun _ _ => by simp [present]⟩
          · rw [← stand_of_indexed indexedB, stands, present]
            simp
          · rw [← stand_of_indexed indexedP, stands, above]
          · exact shows.moveVbranch_branches order wf allowed rfl present above
              (fun c => shows.shown_of_moveDest wf whole indexedP dest) run
          · intro other
            rw [outQWith, if_pos other] at outQ
            exact ⟨_, _, outQ, List.mem_singleton_self _, places⟩
      | none =>
          simp only [src, dest] at run
          by_cases inner : t.parent npb = none
          · -- A branch without a parent is the root, which is not folded, or it is not shown.
            have hidden : viewGetVbranch o vbr.view npb = none := by
              by_contra there
              rw [← stand_of_indexed indexedP] at there
              rcases Option.ne_none_iff_exists'.mp there with ⟨y, above⟩
              have top := shows.shadow.anc_top wf.acyclic above
              exact shows.parent_of_moveDest wf (fun _ => ((anc_iff_of_root inner).mp top).symm)
                present low dest inner
            rw [moveExpanding_eq_self inner hidden run]
            refine ⟨fun moved => ?_, fun _ there => absurd hidden there⟩
            simp [present, inner] at moved
          · refine ⟨fun _ => ?_, fun _ _ => by simp [present, inner]⟩
            cases above : viewGetVbranch o vbr.view npb with
            | none =>
                exact shows.moveExpanding_lands wf allowed rfl made known present above inner run
            | some y =>
                have found : stand t o vbr.view npb = some y := by
                  rw [stand_of_indexed indexedP, above]
                have searched := searched_of_anc (o := o) (v := vbr.view) wf
                  (shows.shadow.anc_top wf.acyclic found)
                exact shows.moveFolded_lands order wf allowed rfl known present
                  ⟨searched, whole.clear npb, inner⟩ dest run
  | none =>
      have absent : stand t o vbr.view b = none := by
        rw [stand_of_indexed indexedB, src]
      cases dest : moveDest t o vbr.view npb with
      | some vnpb =>
          simp only [src, dest] at run
          have above : stand t o vbr.view npb = some vnpb := by
            rw [stand_of_indexed indexedP, viewGetVbranch_of_moveDest dest]
          split at run
          · rename_i other
            exact ⟨fun _ => shows.moveIntoView_lands order wf allowed rfl absent above
              (fun c => shows.shown_of_moveDest wf whole indexedP dest) run,
              fun _ _ => by simp [absent, other]⟩
          · rename_i asks
            rw [← Except.ok.inj run]
            refine ⟨fun moved => ?_, fun there => absurd src there⟩
            simp [absent, asks] at moved
      | none =>
          simp only [src, dest] at run
          refine ⟨fun moved => by simp [absent] at moved, fun there _ => absurd ?_ there⟩
          split at run
          · rcases moveHidden_cases run with ⟨msgs, rfl⟩
            exact src
          · rw [← Except.ok.inj run]
            exact src

/-! A view is visited once, and is as it was before and after that. -/

theorem Overlay.Lands.keeps {o₁ o₂ : Overlay} {k : ℕ}
    (lands : Lands t view v b opb npb newParentId k o₁ o₂) (before : Keeps v o o₁)
    (sent₁ : o.outQ <+: o₁.outQ) (later : Keeps v o₂ o') (sent₂ : o₂.outQ <+: o'.outQ) :
    Lands t view v b opb npb newParentId k o o' where
  shown := by
    rw [later.viewGetVbranch]
    exact lands.shown
  listed := by
    rcases lands.listed with ⟨y, found, own, branches⟩
    have list : o'.vchildren y = o₂.vchildren y :=
      congrArg Vbranch.childList (later.vmem y (view_of_viewGetVbranch found))
    refine ⟨y, ?_, ?_, ?_⟩
    · rw [later.viewGetVbranch, found]
    · rw [list]
      exact own
    · rw [list, ← branches]
      apply List.map_congr_left
      intro x member
      rw [later.vmem x (own x member)]
  told := by
    intro other
    rcases lands.told other with ⟨sent, msg, outQ, inside, places⟩
    rcases sent₁ with ⟨earlier, outQ₁⟩
    rcases sent₂ with ⟨rest, outQ₂⟩
    refine ⟨earlier ++ sent ++ rest, msg, ?_, by simp [inside], ?_⟩
    · rw [← outQ₂, outQ, ← outQ₁]
      simp
    · rw [← before.view]
      exact places

theorem Overlay.Keeps.showsMoved (keeps : Keeps v o o') :
    ShowsMoved t o' view v b npb ↔ ShowsMoved t o view v b npb := by
  have shown : Shown t o' v b ↔ Shown t o v b := exists_congr fun _ => keeps.standsFor
  rw [ShowsMoved, shown, keeps.opens, ShowsMoved]

end Lists

theorem insertIdx_inj {α : Type} [DecidableEq α] {l : List α} {a : α} {i j : ℕ} (nodup : l.Nodup)
    (fresh : a ∉ l) (insideI : i ≤ l.length) (insideJ : j ≤ l.length) :
    l.insertIdx i a = l.insertIdx j a ↔ i = j := by
  constructor
  · intro same
    rw [← idxOf_insertIdx_self nodup fresh insideI, same, idxOf_insertIdx_self nodup fresh insideJ]
  · rintro rfl
    rfl

section Order

variable {m m' : Map} {view : Option ViewPtr} {b opb npb : BranchPtr}
  {newParentId oldParentId branchId : UInt64} {pos : UInt16}

/-- Where a move puts the branch, in the tree and in every view. -/
theorem move_lands (wf : m.tree.WellFormed)
    (consistent : ∀ vbr ∈ m.overlay.vbranchList m.tree.branch,
      Consistent m.tree m.overlay vbr.view)
    (made : ∀ a, ∀ vb ∈ m.overlay.vbranchList a, vb.cell < m.overlay.vnext)
    (accept : moveCheck m.tree newParentId oldParentId branchId = .accept b opb npb)
    (run : move m view newParentId oldParentId branchId pos = .ok (m', true)) :
    m'.tree.children npb = ((m.tree.children npb).erase b).insertIdx
        (min pos.toNat ((m.tree.children npb).erase b).length) b ∧
      ∀ vbr ∈ m.overlay.vbranchList m.tree.branch,
        (ShowsMoved m.tree m.overlay view vbr.view b npb →
          Lands m.tree view vbr.view b opb npb newParentId pos.toNat m.overlay m'.overlay) ∧
        (viewGetVbranch m'.overlay vbr.view b ≠ none →
          viewGetVbranch m'.overlay vbr.view npb ≠ none →
            ShowsMoved m.tree m.overlay view vbr.view b npb) := by
  have movable := SetFaithful.movable wf (fun vbr member => (consistent vbr member).setFaithful wf) b
  rcases (moveCheck_accept wf).mp accept with ⟨_, step, target, _, apart⟩
  rcases move_stages wf accept run with ⟨allowed, after, looped, _⟩
  have edited : m.tree.Moved _ b opb npb pos := moved_rehome wf step apart
  have placed := edited.target
  rw [← after] at placed
  refine ⟨placed, ?_⟩
  intro vbr member
  rcases (movable.rounds wf allowed looped).1 vbr member with
    ⟨o₁, o₂, ⟨before, sent₁⟩, moved, later, sent₂⟩
  rcases (consistent_iff wf).mp (consistent vbr member) with ⟨shows, whole⟩
  have made₁ : ∀ a, ∀ y ∈ o₁.mine vbr.view a, y.cell < o₁.vnext := by
    intro a y inside
    rw [before.mine] at inside
    exact (made a y (mem_mine.mp inside).1).trans_le before.vnext
  rcases (shows.keeps before).moveInView_lands trivial (before.whole.mpr whole) wf made₁ allowed
    (wf.index_spec target).1 moved with ⟨lands, only⟩
  rw [before.showsMoved] at lands only
  refine ⟨fun moves => (lands moves).keeps before sent₁ later sent₂, ?_⟩
  rw [later.viewGetVbranch, later.viewGetVbranch]
  exact only

/--
The move happens, and the tree has the branch at the place that was asked for, cut to the number of
its new siblings. A view that shows the branch and its new parent lists the children of the parent as
the tree does, and unless it asked for the move its client is told the place.
-/
def Map.MovesInOrder (m : Map) (view : Option ViewPtr) (newParentId oldParentId branchId : UInt64)
    (pos : UInt16) (b npb : BranchPtr) : Prop :=
  ∃ m', move m view newParentId oldParentId branchId pos = .ok (m', true) ∧
    (m'.tree.children npb).idxOf b = min pos.toNat ((m.tree.children npb).erase b).length ∧
    ∀ vbr ∈ m.overlay.vbranchList m.tree.branch, ∀ y,
      viewGetVbranch m'.overlay vbr.view npb = some y →
      viewGetVbranch m'.overlay vbr.view b ≠ none →
      m'.overlay.branches (m'.overlay.vchildren y) = m'.tree.children npb ∧
        (some vbr.view ≠ view → ∃ sent msg, m'.overlay.outQ = m.overlay.outQ ++ sent ∧ msg ∈ sent ∧
          msg.Places (m.overlay.views vbr.view).id newParentId branchId pos.toNat)

end Order

end Treedb
