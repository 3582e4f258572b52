import Treedb.MovingViews

/-!
# Views stay faithful under moves and deletions

A move edits every view before it edits the tree. A view that shows the moved branch keeps its
vbranch and everything below it: an expansion on the way fills only vbranches above the new parent,
and the branch is not above its new parent. A deletion first moves a child to the root, for no view
in particular, and then takes the bare branch out of every view.
-/

namespace Treedb

open Forest Overlay Outcome Treedb.Tree

/-- Lists of old vbranches are kept, except for those of `changed`. -/
structure Overlay.KeepsLists (changed : Set VbranchPtr) (o o' : Overlay) : Prop where
  vnext : o.vnext ≤ o'.vnext
  lists : ∀ {y : VbranchPtr}, y.cell < o.vnext → y ∉ changed → o'.vchildren y = o.vchildren y

section Frame

variable {t : Tree} {o o' o'' : Overlay} {v : ViewPtr} {b : BranchPtr}
  {changed changed' : Set VbranchPtr}

theorem Overlay.KeepsLists.refl (changed : Set VbranchPtr) (o : Overlay) : KeepsLists changed o o :=
  ⟨le_rfl, fun _ _ => rfl⟩

theorem Overlay.KeepsLists.trans (first : KeepsLists changed o o')
    (second : KeepsLists changed o' o'') : KeepsLists changed o o'' where
  vnext := first.vnext.trans second.vnext
  lists := by
    intro y old out
    rw [second.lists (old.trans_le first.vnext) out, first.lists old out]

theorem Overlay.KeepsLists.mono (keeps : KeepsLists changed o o') (sub : changed ⊆ changed') :
    KeepsLists changed' o o' :=
  ⟨keeps.vnext, fun old out => keeps.lists old fun inside => out (sub inside)⟩

theorem addVbranch_keepsLists (t : Tree) (o : Overlay) (v : ViewPtr) (new : Vbranch) :
    KeepsLists ∅ o (addVbranch t o v new).1 where
  vnext := (addVbranch_beside t o v new).vnext
  lists := by
    intro y old _
    rw [vchildren, addVbranch_vmem, if_neg]
    · rfl
    · rintro rfl
      exact lt_irrefl _ old

theorem setParents_keepsLists (o : Overlay) (x : VbranchPtr) (list : List VbranchPtr) :
    KeepsLists ∅ o (setParents o x list) where
  vnext := by
    induction list generalizing o with
    | nil => exact le_rfl
    | cons y list ih => exact ih (o.modify y fun z => { z with parent := some x })
  lists := by
    intro y _ _
    rw [vchildren, setParents_vmem]
    split <;> rfl

theorem modify_keepsLists (o : Overlay) (x : VbranchPtr) (f : Vbranch → Vbranch) :
    KeepsLists {x} o (o.modify x f) where
  vnext := le_rfl
  lists := by
    intro y _ other
    rw [vchildren, modify_vmem, if_neg (by simpa using other)]
    rfl

theorem expandSibling_keepsLists (t : Tree) (v : ViewPtr) (b c : BranchPtr)
    (s : Overlay × Option (List VbranchPtr) × List VbranchPtr) :
    KeepsLists ∅ s.1 (expandSibling t v b s c).1 := by
  rcases s with ⟨o, _ | prev, list⟩
  · exact addVbranch_keepsLists t o v _
  · by_cases here : c = b
    · simp only [expandSibling, if_pos here]
      exact (addVbranch_keepsLists t o v _).trans (setParents_keepsLists _ _ prev)
    · simp only [expandSibling, if_neg here]
      exact addVbranch_keepsLists t o v _

theorem foldl_expandSibling_keepsLists (t : Tree) (v : ViewPtr) (b : BranchPtr) (bs : List BranchPtr)
    (s : Overlay × Option (List VbranchPtr) × List VbranchPtr) :
    KeepsLists ∅ s.1 (bs.foldl (expandSibling t v b) s).1 := by
  induction bs generalizing s with
  | nil => exact KeepsLists.refl ∅ s.1
  | cons c bs ih => exact (expandSibling_keepsLists t v b c s).trans (ih _)

/-- The climb gives a list to the vbranch at which it ends, and else only to new vbranches. -/
theorem expandToLoop_keepsLists (fuel : ℕ) {prev : Option (List VbranchPtr)}
    {r : Option VbranchPtr} (run : expandToLoop t v fuel o b prev = .ok (o', r)) :
    KeepsLists { y | r = some y } o o' := by
  induction fuel generalizing o b prev with
  | zero =>
      simp only [expandToLoop, Except.ok.injEq, Prod.mk.injEq] at run
      rw [← run.1]
      exact KeepsLists.refl _ o
  | succ fuel ih =>
      cases found : viewGetVbranch o v b with
      | some y =>
          simp only [expandToLoop, found] at run
          cases prev with
          | none =>
              simp only [Except.ok.injEq, Prod.mk.injEq] at run
              rw [← run.1]
              exact KeepsLists.refl _ o
          | some list =>
              simp only [Except.ok.injEq, Prod.mk.injEq] at run
              rw [← run.1, ← run.2]
              refine ((modify_keepsLists o y _).mono ?_).trans
                ((setParents_keepsLists _ y list).mono (Set.empty_subset _))
              rintro z rfl
              rfl
      | none =>
          simp only [expandToLoop, found] at run
          split at run
          · simp at run
          · rename_i pb _
            have first := foldl_expandSibling_keepsLists t v b
              ((t.mem pb).childList.take (t.mem pb).childN.toNat) (o, prev, [])
            exact (first.mono (Set.empty_subset _)).trans (ih run)

theorem foldl_addTo_keepsLists (t : Tree) (v : ViewPtr) (above : Option VbranchPtr)
    (bs : List BranchPtr) (s : Overlay × List VbranchPtr) :
    KeepsLists ∅ s.1 (bs.foldl (addTo t v above) s).1 := by
  induction bs generalizing s with
  | nil => exact KeepsLists.refl ∅ s.1
  | cons c bs ih =>
      exact (addVbranch_keepsLists t s.1 v { branch := c, parent := above }).trans
        (ih (addTo t v above s c))

theorem expandChildren_keepsLists (t : Tree) (o : Overlay) (v : ViewPtr) (b : BranchPtr) :
    KeepsLists { y | viewGetVbranch o v b = some y } o (expandChildren t o v b) := by
  unfold expandChildren
  split
  · exact KeepsLists.refl _ o
  · split
    · exact KeepsLists.refl _ o
    · rename_i y found
      have first := foldl_addTo_keepsLists t v (some y)
        ((t.mem b).childList.take (t.mem b).childN.toNat) (o, [])
      refine (first.mono (Set.empty_subset _)).trans ((modify_keepsLists _ y _).mono ?_)
      rintro z rfl
      exact found

/-- `view_expand_to` gives lists to the end of the climb and to the branch, of the old vbranches. -/
theorem viewExpandTo_keepsLists {withChildren : Bool} {r : Option VbranchPtr}
    (run : viewExpandTo t o v b withChildren = .ok (o', r)) :
    ∃ o₁, expandPath t o v b = .ok (o₁, r) ∧
      KeepsLists { y | r = some y ∨ viewGetVbranch o₁ v b = some y } o o' := by
  rcases bind_eq_ok.mp run with ⟨⟨o₁, r₁⟩, climb, run⟩
  simp only [pure_eq_ok, Except.ok.injEq, Prod.mk.injEq] at run
  rcases run with ⟨rfl, rfl⟩
  refine ⟨o₁, climb, ?_⟩
  have path : KeepsLists { y | r₁ = some y } o o₁ := by
    unfold expandPath at climb
    split at climb
    · rw [(Prod.mk.inj (Except.ok.inj climb)).1]
      exact KeepsLists.refl _ o₁
    · exact expandToLoop_keepsLists _ climb
  have children : KeepsLists { y | viewGetVbranch o₁ v b = some y } o₁
      (if withChildren then expandChildren t o₁ v b else o₁) := by
    split
    · exact expandChildren_keepsLists t o₁ v b
    · exact KeepsLists.refl _ o₁
  exact (path.mono fun y same => .inl same).trans (children.mono fun y same => .inr same)

end Frame

/-! ## The subtree of a moved branch -/

section Subtree

variable {want : Demands} {t : Tree} {o o' : Overlay} {view : Option ViewPtr} {v : ViewPtr}
  {vbr vb vnpb y z : VbranchPtr} {a b c opb npb : BranchPtr} {newParentId : UInt64} {pos : UInt16}
  {i : ℕ}

/-- The list `list` after `x` is taken out and put at the position that the tree gives to `b`. -/
def placedIn (t : Tree) (b : BranchPtr) (x : VbranchPtr) (list : List VbranchPtr) :
    List VbranchPtr :=
  (list.erase x).insertIdx (insertPos (branchGetPos t b) (list.erase x).length) x

/-- The moved vbranch leaves its list and is put where the branch stands before the move. -/
theorem Shows.moveVbranch_vchildren (shows : Shows want t o v {t.branch}) (wf : t.WellFormed)
    (low : b ≠ t.branch) (apart : npb ≠ b) (present : stand t o v b = some vb)
    (above : stand t o v npb = some vnpb)
    (run : Treedb.moveVbranch t o view vbr vb vnpb b npb pos = .ok o')
    (shown : stand t o v a = some z) :
    o'.vchildren z =
      if a = npb then placedIn t b vb (o.vchildren z) else (o.vchildren z).erase vb := by
  rcases shows.detach present low with ⟨_, relinks, _⟩
  rcases bind_eq_ok.mp run with ⟨o₁, linked, run⟩
  have kept : o'.vchildren z = o₁.vchildren z := by
    split at run
    · rw [← Except.ok.inj run]
      rfl
    · rw [← Except.ok.inj run]
  have ne : vb ≠ vnpb := by
    rintro rfl
    exact apart (shows.shadow.inj above present)
  have detached := shows.vbranchDetach_vchildren present low above
  have short : ((vbranchDetach o vb).vchildren vnpb).length ≤ 65535 := by
    rw [detached]
    have bound := shows.down_length_le wf above
    have most := wf.children_length_le npb
    have erased : ((o.vchildren vnpb).erase vb).length ≤ (o.vchildren vnpb).length :=
      List.length_erase_le
    omega
  rcases vbranchAdd_spec (view_of_stand present) (view_of_stand above) ne short linked with
    ⟨_, _, lists, _⟩
  have branch : ((vbranchDetach o vb).vmem vb).branch = b := by
    rw [relinks.branch, shows.branch_eq present]
  rw [kept, lists]
  by_cases here : a = npb
  · subst here
    rw [shown, Option.some.injEq] at above
    subst above
    rw [if_pos rfl, if_pos rfl, linkPos, branch, detached, placedIn]
  · have other : z ≠ vnpb := by
      rintro rfl
      exact here (shows.shadow.inj shown above)
    rw [if_neg other, if_neg here, shows.vbranchDetach_vchildren present low shown]

/-- What a view shows below a branch keeps its list when the branch moves away from it. -/
theorem Shows.moveVbranch_below (shows : Shows want t o v {t.branch}) (wf : t.WellFormed)
    (allowed : (Edit.rehome b opb npb i).Allowed t) (present : stand t o v b = some vb)
    (above : stand t o v npb = some vnpb)
    (run : Treedb.moveVbranch t o view vbr vb vnpb b npb pos = .ok o') (below : Anc t.parent c b)
    (shown : stand t o v c = some y) : o'.vchildren y = o.vchildren y := by
  have low : b ≠ t.branch := wf.ne_root allowed.1
  have apart : npb ≠ b := by
    rintro rfl
    exact allowed.2.2.1 (anc_refl t.parent npb)
  have other : c ≠ npb := by
    rintro rfl
    exact allowed.2.2.1 below
  rw [shows.moveVbranch_vchildren wf low apart present above run shown, if_neg other,
    List.erase_of_not_mem]
  intro member
  rcases (shows.shadow.mem_down shown).mp member with ⟨d, child, _, found⟩
  rw [shows.shadow.inj found present] at child
  exact wf.acyclic.strict_irrefl b ((strictAnc_iff_of_parent child).mpr below)

/-- A view that shows the moved branch keeps its vbranch, and every list at or below it. -/
theorem Shows.moveInView_subtree (shows : Shows .bare t o vbr.view {t.branch}) (wf : t.WellFormed)
    (allowed : (Edit.rehome b opb npb i).Allowed t)
    (expands : viewGetVbranch o vbr.view b ≠ none → moveDest t o vbr.view npb = none →
      Expandable t o vbr.view npb)
    (run : Treedb.moveInView t view b opb npb newParentId pos o vbr = .ok o')
    (present : stand t o vbr.view b = some vb) (below : Anc t.parent c b)
    (shown : stand t o vbr.view c = some y) :
    stand t o' vbr.view c = some y ∧ o'.vchildren y = o.vchildren y := by
  have indexedP := allowed.2.1
  have src : viewGetVbranch o vbr.view b = some vb := by
    rw [← stand_of_indexed (wf.indexed_of_parent allowed.1), present]
  rw [moveInView_eq] at run
  cases dest : moveDest t o vbr.view npb with
  | some vnpb =>
      simp only [src, dest] at run
      have above : stand t o vbr.view npb = some vnpb := by
        rw [stand_of_indexed indexedP, viewGetVbranch_of_moveDest dest]
      rcases shows.moveVbranch wf allowed rfl present above id run with ⟨_, _, stands, _⟩
      rw [stands]
      exact ⟨shown, shows.moveVbranch_below wf allowed present above run below shown⟩
  | none =>
      simp only [src, dest] at run
      have folded := fun c => shows.hidden_of_moveDest wf indexedP dest (c := c)
      rcases expands (by simp [src]) dest with ⟨searched, cleared, inner⟩
      rcases shows.moveExpanding_stages wf searched indexedP rfl cleared (fun _ _ => folded) inner
        run with ⟨o₁, e, z, vnpb, expanded, first, after, enlarges, _, above, moved⟩
      rcases viewExpandTo_keepsLists expanded with ⟨o₂, climb, keeps⟩
      rcases shows.expandPath wf searched cleared climb with ⟨after₂, enlarges₂, _, _⟩
      have pushed := relinks_push o₁ vbr.view (expandedMessage t o₁ z pos.toNat)
      have presentC := enlarges.kept shown
      have presentB := enlarges.kept present
      rw [← pushed.stand t vbr.view] at above presentB presentC
      rcases (after.push _).moveVbranch wf allowed rfl presentB above id moved with
        ⟨_, _, stands, _⟩
      refine ⟨by rw [stands]; exact presentC, ?_⟩
      rw [(after.push _).moveVbranch_below wf allowed presentB above moved below presentC]
      change o₁.vchildren y = o.vchildren y
      apply keeps.lists (shows.cell_lt shown)
      -- The climb starts at the new parent, which is not below the branch.
      rintro (same | same)
      · rw [Option.some.injEq] at same
        subst same
        rw [shows.shadow.inj first.present shown] at first
        exact allowed.2.2.1 (first.anc.trans below)
      · rw [← stand_of_indexed indexedP] at same
        rw [← after₂.shadow.inj same (enlarges₂.kept shown)] at below
        exact allowed.2.2.1 below

end Subtree

/-! ## Moves -/

/-- The vbranch `y` is `x` or is listed below it. -/
def Overlay.Under (o : Overlay) (x y : VbranchPtr) : Prop :=
  Relation.ReflTransGen (fun x y => y ∈ o.vchildren x) x y

/-- The vbranches at and below `x` stand for the same branches and have the same lists. -/
def Overlay.SameUnder (x : VbranchPtr) (o o' : Overlay) : Prop :=
  ∀ y, o.Under x y → (o'.vmem y).branch = (o.vmem y).branch ∧ o'.vchildren y = o.vchildren y

/-- Every view that shows the root is faithful as a set. -/
def Map.AllFaithful (m : Map) : Prop :=
  ∀ vbr ∈ m.overlay.vbranchList m.tree.branch, SetFaithful m.tree m.overlay vbr.view

section Moves

variable {want : Demands} {t : Tree} {o : Overlay} {v : ViewPtr} {m m' : Map}
  {view : Option ViewPtr} {vbr vb y : VbranchPtr} {b p opb npb : BranchPtr}
  {newParentId oldParentId branchId : UInt64} {pos : UInt16} {accepted : Bool}

theorem Shows.anc_of_under (shows : Shows want t o v {t.branch}) (present : stand t o v b = some vb)
    (under : o.Under vb y) : ∃ c, Anc t.parent c b ∧ stand t o v c = some y := by
  induction under with
  | refl => exact ⟨b, anc_refl t.parent b, present⟩
  | tail _ member ih =>
      rcases ih with ⟨c, below, shown⟩
      rcases (shows.shadow.mem_down shown).mp member with ⟨d, child, _, found⟩
      exact ⟨d, (anc_of_parent child).trans below, found⟩

/-- An accepted move and what it leaves of one view. -/
theorem Map.AllFaithful.move (faithful : m.AllFaithful) (wf : m.tree.WellFormed)
    (leads : Leads m.tree m.overlay b npb)
    (accept : moveCheck m.tree newParentId oldParentId branchId = .accept b opb npb)
    (run : Treedb.move m view newParentId oldParentId branchId pos = .ok (m', accepted))
    (member : vbr ∈ m.overlay.vbranchList m.tree.branch) :
    (some vbr.view ≠ view ∨ stand m.tree m.overlay vbr.view b ≠ none →
      SetFaithful m'.tree m'.overlay vbr.view) ∧
    ∀ vb, stand m.tree m.overlay vbr.view b = some vb →
      stand m'.tree m'.overlay vbr.view b = some vb ∧ SameUnder vb m.overlay m'.overlay := by
  rcases move_stages wf accept run with ⟨allowed, after, looped, _⟩
  have sameRoot : m'.tree.branch = m.tree.branch := by
    rw [after]
    exact Edit.apply_branch _ _
  have stands : ∀ o c, stand m'.tree o vbr.view c = stand m.tree o vbr.view c := by
    intro o c
    rw [after]
    rfl
  have movable := SetFaithful.movable wf faithful b
  have shows := movable.shows vbr member
  rcases (movable.rounds wf allowed looped).1 vbr member with ⟨o₁, o₂, ⟨before, _⟩, moved, later, _⟩
  rcases movable.turned wf leads allowed member before moved later with ⟨turned, whole⟩
  rw [← after] at turned whole
  have subtree : ∀ vb c y, stand m.tree m.overlay vbr.view b = some vb → Anc m.tree.parent c b →
      stand m.tree m.overlay vbr.view c = some y →
      stand m'.tree m'.overlay vbr.view c = some y ∧
        m'.overlay.vchildren y = m.overlay.vchildren y := by
    intro vb c y present below shown
    rcases movable.round wf leads allowed.1 member before with ⟨shows₁, expands⟩
    have standing := before.stand m.tree
    rcases shows₁.moveInView_subtree wf allowed expands moved (by rw [standing]; exact present) below
      (by rw [standing]; exact shown) with ⟨found, list⟩
    have own : y.view = vbr.view := view_of_stand shown
    refine ⟨by rw [stands, later.stand]; exact found, ?_⟩
    rw [vchildren, later.vmem y own, ← vchildren, list, vchildren, before.vmem y own]
    rfl
  constructor
  · intro concerned
    rw [setFaithful_iff (after ▸ wf.apply allowed), sameRoot]
    refine ⟨turned, ?_⟩
    rcases whole ((setFaithful_iff wf).mp (faithful vbr member)).2 with still | ⟨asks, hidden⟩
    · exact still
    · rcases concerned with other | there
      · exact absurd asks other
      · rcases Option.ne_none_iff_exists'.mp there with ⟨vb, present⟩
        rw [(subtree vb b vb present (anc_refl _ b) present).1] at hidden
        simp at hidden
  · intro vb present
    refine ⟨(subtree vb b vb present (anc_refl _ b) present).1, ?_⟩
    intro y under
    rcases shows.anc_of_under present under with ⟨c, below, shown⟩
    rcases subtree vb c y present below shown with ⟨found, list⟩
    exact ⟨by rw [turned.branch_eq found, shows.branch_eq shown], list⟩

/-- A move on behalf of no view leaves every view faithful. -/
theorem Map.AllFaithful.move_none (faithful : m.AllFaithful) (wf : m.tree.WellFormed)
    (leads : Leads m.tree m.overlay b npb)
    (accept : moveCheck m.tree newParentId oldParentId branchId = .accept b opb npb)
    (run : Treedb.move m none newParentId oldParentId branchId pos = .ok (m', accepted)) :
    m'.AllFaithful ∧ ∀ vbr ∈ m.overlay.vbranchList m.tree.branch,
      SetFaithful m'.tree m'.overlay vbr.view := by
  have kept : ∀ vbr ∈ m.overlay.vbranchList m.tree.branch,
      SetFaithful m'.tree m'.overlay vbr.view :=
    fun vbr member => (faithful.move wf leads accept run member).1 (.inl (by simp))
  refine ⟨?_, kept⟩
  rcases move_stages wf accept run with ⟨allowed, after, looped, _⟩
  intro vbr member
  rw [after, Edit.apply_branch] at member
  rcases ((SetFaithful.movable wf faithful b).rounds wf allowed looped).2 vbr member with
    ⟨x, listed, own⟩
  rw [← own]
  exact kept x listed

end Moves

/-! ## Deletions -/

section Deletions

variable {t : Tree} {o o' : Overlay} {m m' : Map} {view : Option ViewPtr} {vbr : VbranchPtr}
  {b p : BranchPtr} {branchId : UInt64} {accepted : Bool}

/-- A view that shows nothing below the root shows no other branch. -/
theorem Shows.opens_root (shows : Shows want t o v {t.branch}) (wf : t.WellFormed)
    (shown : Shown t o v b) (low : b ≠ t.branch) : Opens t o v t.branch := by
  rcases Option.ne_none_iff_exists'.mp (shows.shown_iff.mp shown) with ⟨vb, present⟩
  exact ⟨_, standsFor_of_stand shows.root, .inr (shows.root_unfolded wf present low)⟩

/--
The child of a deleted branch moves to the root exactly if the views that are folded there meet
something above the branch.
-/
theorem Map.AllFaithful.deleteChildren_ok_iff (faithful : m.AllFaithful) (wf : m.tree.WellFormed)
    (room : ∀ x, (m.tree.children x).length < 65535) (parentB : m.tree.parent b = some p)
    (few : (m.tree.children b).length ≤ 1) :
    (∃ m', deleteChildren b (2 ^ 16) 0 m = .ok m') ↔
      (m.tree.children b ≠ [] → ∀ vbr ∈ m.overlay.vbranchList m.tree.branch,
        ¬Opens m.tree m.overlay vbr.view m.tree.branch → Meets m.tree m.overlay vbr.view b) := by
  rcases listed : m.tree.children b with _ | ⟨c, _ | ⟨d, rest⟩⟩
  · simp only [ne_eq, not_true_eq_false, false_imp_iff, iff_true]
    exact ⟨m, deleteChildren_nil _ _ wf listed⟩
  · have step : m.tree.parent c = some b := wf.mirrors.mem_iff.mp (by simp [listed])
    have shows := fun vbr member => (faithful vbr member).shows wf
    have ends := move_ok_iff wf room shows (moveCheck_child wf step) none 9999
    have moves : (∃ m', deleteChildren b (2 ^ 16) 0 m = .ok m') ↔
        ∃ m', Treedb.move m none (m.tree.mem m.tree.branch).id (m.tree.mem b).id
          (m.tree.mem c).id 9999 = .ok (m', true) := by
      rw [show deleteChildren b (2 ^ 16) 0 m = _ from deleteChildren_single 65535 wf parentB listed]
      constructor
      · rintro ⟨m', run⟩
        rcases map_eq_ok.mp run with ⟨⟨m₁, accepted⟩, moved, rfl⟩
        rw [(move_of_accept wf (moveCheck_child wf step) moved).2.2] at moved
        exact ⟨m₁, moved⟩
      · rintro ⟨m', moved⟩
        exact ⟨m', by rw [moved]; rfl⟩
    simp only [ne_eq, reduceCtorEq, not_false_eq_true, true_imp_iff]
    rw [moves, ends]
    refine forall₂_congr fun vbr member => ?_
    have meets := (shows vbr member).meets wf (anc_refl m.tree.parent m.tree.branch)
    have hidden : ¬Opens m.tree m.overlay vbr.view m.tree.branch →
        ¬Shown m.tree m.overlay vbr.view c :=
      fun closed shown => closed ((shows vbr member).opens_root wf shown (wf.ne_root step))
    constructor
    · exact fun both closed => (both.hidden (hidden closed) closed (by simp)).mpr meets
    · exact fun meetsB => ⟨fun _ _ => .inr meets,
        fun _ closed _ => iff_of_true (meetsB closed) meets⟩
  · simp [listed] at few

/-- The move of the child leaves the views faithful. -/
theorem Map.AllFaithful.deleteChildren (faithful : m.AllFaithful) (wf : m.tree.WellFormed)
    (parentB : m.tree.parent b = some p) (few : (m.tree.children b).length ≤ 1)
    (run : Treedb.deleteChildren b (2 ^ 16) 0 m = .ok m') :
    m'.AllFaithful ∧
      ∀ vbr ∈ m.overlay.vbranchList m.tree.branch, SetFaithful m'.tree m'.overlay vbr.view := by
  rcases listed : m.tree.children b with _ | ⟨c, _ | ⟨d, rest⟩⟩
  · rw [deleteChildren_nil _ _ wf listed, Except.ok.injEq] at run
    exact run ▸ ⟨faithful, faithful⟩
  · have step : m.tree.parent c = some b := wf.mirrors.mem_iff.mp (by simp [listed])
    rw [show Treedb.deleteChildren b (2 ^ 16) 0 m = _ from
      deleteChildren_single 65535 wf parentB listed] at run
    rcases map_eq_ok.mp run with ⟨⟨m₁, accepted⟩, moved, rfl⟩
    exact faithful.move_none wf (fun _ _ _ => anc_refl _ _) (moveCheck_child wf step) moved
  · simp [listed] at few

/-- A branch without children leaves every view; what else the views show stays as it was. -/
theorem SetFaithful.deleteInView_all (wf : t.WellFormed) (step : t.parent b = some p)
    (leaf : t.children b = [])
    (faithful : ∀ vbr ∈ o.vbranchList t.branch, SetFaithful t o vbr.view)
    (run : (o.vbranchList t.branch).foldlM (deleteInView t view b) o = .ok o')
    (member : vbr ∈ o.vbranchList t.branch) :
    SetFaithful ((Edit.forget b p).apply t) o' vbr.view := by
  have shows := fun vbr member => ((setFaithful_iff wf).mp (faithful vbr member)).1
  have sameRoot : ((Edit.forget b p).apply t).branch = t.branch := Edit.apply_branch _ _
  rcases (foldlM_rounds Keeps.refl (fun _ _ _ _ first => first.trans)
    (nodup_views fun vb member => (shows vb member).alone wf.root_indexed)
    (by
      intro x o₁ o₂ listed keeps deleted w other
      rcases ((shows x listed).keeps keeps).deleteInView wf step (.inr ⟨leaf, id⟩) id deleted with
        ⟨_, within⟩
      exact within.keeps other) run).1 vbr member with ⟨o₁, o₂, before, deleted, later⟩
  rcases ((shows vbr member).keeps before).deleteInView wf step (.inr ⟨leaf, id⟩) id deleted with
    ⟨after, _⟩
  rw [setFaithful_iff (wf.apply (e := .forget b p) step), sameRoot]
  refine ⟨sameRoot ▸ (sameRoot.symm ▸ after).keeps later, ?_⟩
  have mine : ∀ x, o'.mine vbr.view x = o.mine vbr.view x := by
    intro x
    rw [later.mine, ← before.mine, mine, mine, deleteInView_lists deleted]
  have stands : ∀ x, x ≠ b →
      stand ((Edit.forget b p).apply t) o' vbr.view x = stand t o vbr.view x := by
    intro x other
    apply stand_congr _ (mine x)
    rw [(wf.forget_apply step x).2.2.2]
    simp [other]
  intro q c d childC childD there
  rw [(wf.forget_apply step c).1] at childC
  rw [(wf.forget_apply step d).1] at childD
  have otherC : c ≠ b := by
    rintro rfl
    simp at childC
  have otherD : d ≠ b := by
    rintro rfl
    simp at childD
  rw [if_neg otherC] at childC
  rw [if_neg otherD] at childD
  rw [stands c otherC] at there
  rw [stands d otherD]
  exact ((setFaithful_iff wf).mp (faithful vbr member)).2 q c d childC childD there

/-- The deletion of a branch with at most one child leaves every view faithful, and without it. -/
theorem Map.AllFaithful.delete (faithful : m.AllFaithful) (wf : m.tree.WellFormed)
    (found : branchIndexGet m.tree branchId = some b) (parentB : m.tree.parent b = some p)
    (few : (m.tree.children b).length ≤ 1) (run : Treedb.delete m view branchId = .ok m')
    (member : vbr ∈ m.overlay.vbranchList m.tree.branch) :
    SetFaithful m'.tree m'.overlay vbr.view ∧
      ∀ y, m'.overlay.Reaches vbr.view y → (m'.overlay.vmem y).branch ≠ b := by
  simp only [Treedb.delete, found, show (m.tree.mem b).parent = some p from parentB] at run
  rcases bind_eq_ok.mp run with ⟨m₁, emptied, run⟩
  rcases bind_eq_ok.mp run with ⟨o₂, looped, run⟩
  rcases faithful.deleteChildren wf parentB few emptied with ⟨faithful₁, kept⟩
  rcases deleteChildren_edits True True _ _ wf parentB emptied with ⟨edits, parentB₁⟩
  have leaf := (deleteChildren_few _ wf parentB few emptied).1
  have wf₁ := edits.wellFormed wf
  simp only [show (m₁.tree.mem b).parent = some p from parentB₁, pure_eq_ok, Except.ok.injEq] at run
  subst run
  have root := (kept vbr member).root
  have turned := SetFaithful.deleteInView_all wf₁ parentB₁ leaf faithful₁ looped root.member
  rw [root.view, ← wf₁.deleteBranch_eq parentB₁] at turned
  have after : (deleteBranch m₁.tree b p).WellFormed := by
    rw [wf₁.deleteBranch_eq parentB₁]
    exact wf₁.apply (e := .forget b p) parentB₁
  have gone : ¬(deleteBranch m₁.tree b p).Indexed b := by
    rw [wf₁.deleteBranch_eq parentB₁, (wf₁.forget_apply parentB₁ b).2.2.2]
    simp
  have marked : SetFaithful (deleteBranch m₁.tree b p)
      (if (m₁.tree.mem b).noteId ≠ 0 then
        o₂.push (.mapRemoveMark m₁.id (m₁.tree.mem b).noteId (m₁.tree.mem b).id) else o₂)
      vbr.view := by
    split
    · rw [setFaithful_iff after] at turned ⊢
      exact ⟨turned.1.push _, turned.2⟩
    · exact turned
  refine ⟨marked, ?_⟩
  intro y reached isB
  have shows := marked.shows after
  rcases (shows.reaches_iff after).mp reached with ⟨c, shown⟩
  rw [shows.branch_eq shown] at isB
  exact gone (isB ▸ (stand_eq_some.mp shown).1)

end Deletions

/-- The move is made. It leaves the views faithful, and what they show of the branch as it was. -/
def Map.MovesFaithfully (m : Map) (view : Option ViewPtr) (newParentId oldParentId branchId : UInt64)
    (pos : UInt16) (b : BranchPtr) : Prop :=
  ∃ m', move m view newParentId oldParentId branchId pos = .ok (m', true) ∧
    ∀ vbr ∈ m.overlay.vbranchList m.tree.branch,
      (some vbr.view ≠ view ∨ Shown m.tree m.overlay vbr.view b →
        SetFaithful m'.tree m'.overlay vbr.view) ∧
      ∀ vb, StandsFor m.tree m.overlay vbr.view b vb →
        StandsFor m'.tree m'.overlay vbr.view b vb ∧ SameUnder vb m.overlay m'.overlay

/-- The delete ends. It leaves the views faithful, and without the branch unless it is the root. -/
def Map.DeletesFaithfully (m : Map) (view : Option ViewPtr) (branchId : UInt64) (b : BranchPtr) :
    Prop :=
  ∃ m', delete m view branchId = .ok m' ∧
    ∀ vbr ∈ m.overlay.vbranchList m.tree.branch, SetFaithful m'.tree m'.overlay vbr.view ∧
      (b ≠ m.tree.branch → ∀ y, m'.overlay.Reaches vbr.view y → (m'.overlay.vmem y).branch ≠ b)

section Exactly

variable {m m' : Map} {view : Option ViewPtr} {b opb npb : BranchPtr}
  {newParentId oldParentId branchId : UInt64} {pos : UInt16} {accepted : Bool} {v : ViewPtr}

/-- A branch that a faithful view shows after a move is below the root, and so is its new parent. -/
theorem anc_of_shown_after (wf : m.tree.WellFormed)
    (accept : moveCheck m.tree newParentId oldParentId branchId = .accept b opb npb)
    (run : move m view newParentId oldParentId branchId pos = .ok (m', accepted))
    (faithful : SetFaithful m'.tree m'.overlay v) (shown : Shown m'.tree m'.overlay v b) :
    Anc m.tree.parent npb m.tree.branch := by
  rcases move_stages wf accept run with ⟨allowed, after, _, _⟩
  have wf' : m'.tree.WellFormed := after ▸ wf.apply allowed
  have root : m'.tree.branch = m.tree.branch := by
    rw [after]
    exact Edit.apply_branch _ _
  have parents : ∀ x, m'.tree.parent x = if x = b then some npb else m.tree.parent x := by
    intro x
    rw [after, (m.tree.rehome_apply b opb npb _ x).1]
  have shows := faithful.shows wf'
  rcases Option.ne_none_iff_exists'.mp (shows.shown_iff.mp shown) with ⟨vb, present⟩
  have top : Anc m'.tree.parent b m.tree.branch := by
    have above := shows.shadow.anc_top wf'.acyclic present
    rwa [root] at above
  have step : m'.tree.parent b = some npb := by
    rw [parents, if_pos rfl]
  have apart := wf'.acyclic.not_anc_of_strict (strictAnc_iff_parent.mpr
    ⟨npb, step, anc_refl m'.tree.parent npb⟩)
  have above : Anc m'.tree.parent npb m.tree.branch := by
    rcases (anc_iff_of_parent step).mp top with same | above
    · exact absurd same.symm (wf.ne_root allowed.1)
    · exact above
  -- Above the new parent the move changed nothing.
  have kept : ∀ x, Anc m'.tree.parent x m.tree.branch → ¬Anc m'.tree.parent x b →
      Anc m.tree.parent x m.tree.branch := by
    intro x above
    induction above using Relation.ReflTransGen.head_induction_on with
    | refl => exact fun _ => anc_refl _ _
    | @head x y link _ ih =>
        intro apart
        have other : x ≠ b := by
          rintro rfl
          exact apart (anc_refl _ _)
        have link' : m'.tree.parent x = some y := link
        rw [parents, if_neg other] at link'
        exact (anc_of_parent link').trans (ih fun low => apart ((anc_of_parent link).trans low))
  exact kept npb above apart

/-- An accepted move is made faithfully exactly if no view takes the branch out of the tree. -/
theorem Map.AllFaithful.movesFaithfully_iff (faithful : m.AllFaithful) (wf : m.tree.WellFormed)
    (room : ∀ x, (m.tree.children x).length < 65535)
    (accept : moveCheck m.tree newParentId oldParentId branchId = .accept b opb npb)
    (view : Option ViewPtr) (pos : UInt16) :
    m.MovesFaithfully view newParentId oldParentId branchId pos b ↔
      ∀ vbr ∈ m.overlay.vbranchList m.tree.branch,
        (Shown m.tree m.overlay vbr.view b → m.tree.Reachable npb) ∧
          MoveMeets m.tree m.overlay view vbr.view b opb npb := by
  have shows := fun vbr member => (faithful vbr member).shows wf
  have ends := move_ok_iff wf room shows accept view pos
  constructor
  · rintro ⟨m', run, kept⟩ vbr member
    refine ⟨?_, ends.mp ⟨m', run⟩ vbr member⟩
    rintro ⟨vb, stands⟩
    rw [wf.reachable_iff]
    exact anc_of_shown_after wf accept run ((kept vbr member).1 (.inr ⟨vb, stands⟩))
      ⟨vb, ((kept vbr member).2 vb stands).1⟩
  · intro all
    have leads : Leads m.tree m.overlay b npb := by
      intro vbr member there
      rw [← wf.reachable_iff]
      exact (all vbr member).1 ((shows vbr member).shown_iff.mpr there)
    rcases ends.mpr fun vbr member => (all vbr member).2 with ⟨m', run⟩
    refine ⟨m', run, ?_⟩
    intro vbr member
    rcases faithful.move wf leads accept run member with ⟨turned, kept⟩
    rw [(shows vbr member).shown_iff]
    refine ⟨turned, ?_⟩
    intro vb stands
    rcases kept vb ((shows vbr member).standsFor_iff.mp stands) with ⟨found, same⟩
    exact ⟨standsFor_of_stand found, same⟩

/-- A branch with at most one child is deleted faithfully exactly if the move of the child ends. -/
theorem Map.AllFaithful.deletesFaithfully_iff (faithful : m.AllFaithful) (wf : m.tree.WellFormed)
    (room : ∀ x, (m.tree.children x).length < 65535)
    (found : branchIndexGet m.tree branchId = some b) (few : (m.tree.children b).length ≤ 1)
    (view : Option ViewPtr) :
    m.DeletesFaithfully view branchId b ↔
      (m.tree.parent b ≠ none → m.tree.children b ≠ [] →
        ∀ vbr ∈ m.overlay.vbranchList m.tree.branch,
          ¬Opens m.tree m.overlay vbr.view m.tree.branch → Meets m.tree m.overlay vbr.view b) := by
  have shows := fun vbr member => (faithful vbr member).shows wf
  rcases parentB : m.tree.parent b with _ | p
  · -- A branch without a parent is not deleted, and shown only if it is the root.
    refine iff_of_true ⟨m, ?_, ?_⟩ (fun inner => absurd rfl inner)
    · simp [Treedb.delete, found, show (m.tree.mem b).parent = none from parentB]
    · intro vbr member
      refine ⟨faithful vbr member, fun low y reached isB => ?_⟩
      rcases ((shows vbr member).reaches_iff wf).mp reached with ⟨c, shown⟩
      rw [(shows vbr member).branch_eq shown] at isB
      subst isB
      rcases (shows vbr member).shadow.up_eq shown low with ⟨p, _, step, _⟩
      simp [parentB] at step
  · rw [← parentB, ← faithful.deleteChildren_ok_iff wf room parentB few]
    simp only [parentB, ne_eq, reduceCtorEq, not_false_eq_true, true_imp_iff]
    constructor
    · rintro ⟨m', run, _⟩
      simp only [Treedb.delete, found, show (m.tree.mem b).parent = some p from parentB] at run
      rcases bind_eq_ok.mp run with ⟨m₁, emptied, _⟩
      exact ⟨m₁, emptied⟩
    · rintro ⟨m₁, emptied⟩
      rcases delete_of_emptied wf found parentB emptied view with ⟨m', run⟩
      refine ⟨m', run, fun vbr member => ?_⟩
      rcases faithful.delete wf found parentB few run member with ⟨turned, gone⟩
      exact ⟨turned, fun _ => gone⟩

end Exactly

/--
Moves and deletions keep views faithful as sets. Only the view that asks for a move of a branch that
it does not show may be left behind. A view keeps the vbranch of a moved branch and all below it, and
no view is left with a vbranch of a deleted branch. They do so exactly if no shown branch moves below
one that a delete left behind, and all climbs end.
-/
theorem move_delete_faithful_iff {m : Map} (wf : m.tree.WellFormed)
    (room : ∀ x, (m.tree.children x).length < 65535)
    (faithful : ∀ vbr ∈ m.overlay.vbranchList m.tree.branch,
      SetFaithful m.tree m.overlay vbr.view) (view : Option ViewPtr) (branchId : UInt64) :
    (∀ newParentId oldParentId pos b opb npb,
      m.tree.MoveFits newParentId oldParentId branchId b opb npb →
        (m.MovesFaithfully view newParentId oldParentId branchId pos b ↔
          ∀ vbr ∈ m.overlay.vbranchList m.tree.branch,
            (Shown m.tree m.overlay vbr.view b → m.tree.Reachable npb) ∧
              MoveMeets m.tree m.overlay view vbr.view b opb npb)) ∧
    ∀ b, branchIndexGet m.tree branchId = some b → (m.tree.children b).length ≤ 1 →
      (m.DeletesFaithfully view branchId b ↔
        (m.tree.parent b ≠ none → m.tree.children b ≠ [] →
          ∀ vbr ∈ m.overlay.vbranchList m.tree.branch,
            ¬Opens m.tree m.overlay vbr.view m.tree.branch →
              Meets m.tree m.overlay vbr.view b)) := by
  have all : m.AllFaithful := faithful
  exact ⟨fun _ _ pos b opb npb fits => all.movesFaithfully_iff wf room ((moveFits_iff wf).mp fits)
    view pos, fun b found few => all.deletesFaithfully_iff wf room found few view⟩

/-- A grandchild of the root is moved to the root and deleted, beside a view of the root's child. -/
theorem move_delete_faithful_iff_example :
    ∃ m : Map, (∃ vbr, vbr ∈ m.overlay.vbranchList m.tree.branch) ∧
      (∃ b, m.MovesFaithfully none 1 2 3 0 b) ∧ ∃ b, m.DeletesFaithfully (some 0) 2 b := by
  rcases viewed_run with ⟨m₀, m, run, made, viewed, next, _⟩
  have room := viewed.wf.children_length_lt (by omega)
  have observed : ((mapCreateEmpty 1).run [.insert 0 1 2 0 [] 0 0, .insert 0 2 3 0 [] 0 0] >>=
      fun m => mapInitView m 7 0 0 [] 0 [] []).toOption.map (fun m =>
        (moveCheck m.tree 1 2 3, branchIndexGet m.tree 2, (m.tree.children 1).length,
          m.overlay.vbranchList m.tree.branch)) =
      some (.accept 2 1 0, some 1, 1, [⟨0, 0⟩]) := by
    decide +kernel
  rw [run, ok_bind, made] at observed
  simp only [Except.toOption, Option.map_some, Option.some.injEq, Prod.mk.injEq] at observed
  rcases observed with ⟨accept, found, single, views⟩
  have shows := fun vbr member => (viewed.setFaithful vbr member).shows viewed.wf
  have fits := (moveFits_iff viewed.wf).mpr accept
  have low : ∀ b, m.tree.Indexed b → Anc m.tree.parent b m.tree.branch := viewed.rooted
  have lowP := low 0 ⟨_, fits.target⟩
  refine ⟨m, ⟨⟨0, 0⟩, by simp [views]⟩, ⟨2, ?_⟩, ⟨1, ?_⟩⟩
  · refine ((move_delete_faithful_iff viewed.wf room viewed.setFaithful none 3).1 1 2 0 2 1 0
      fits).mpr fun vbr member => ⟨fun _ => viewed.wf.reachable_iff.mpr lowP, ?_⟩
    exact (shows vbr member).moveMeets_of_anc viewed.wf (low 1 ⟨_, found⟩) lowP
  · refine ((move_delete_faithful_iff viewed.wf room viewed.setFaithful (some 0) 2).2 1 found
      single.le).mpr fun _ _ vbr member _ => ?_
    exact (shows vbr member).meets viewed.wf (low 1 ⟨_, found⟩)

/-- A shown branch moves below a branch that a delete left behind, which is never done. -/
theorem move_below_leftBehind_fails :
    ¬∀ (m : Map) (view : Option ViewPtr) (newParentId oldParentId branchId : UInt64) (pos : UInt16)
        (b opb npb : BranchPtr), m.tree.WellFormed →
      (∀ x, (m.tree.children x).length < 65535) →
      (∀ vbr ∈ m.overlay.vbranchList m.tree.branch, SetFaithful m.tree m.overlay vbr.view) →
      m.tree.MoveFits newParentId oldParentId branchId b opb npb →
      m.MovesFaithfully view newParentId oldParentId branchId pos b := by
  intro moves
  rcases leftBehind_run with ⟨m₀, m, run, made, pictured, room, check, _⟩
  have fails : ((mapCreateEmpty 1).run [.insert 0 1 2 0 [] 0 0, .insert 0 2 3 0 [] 0 0,
      .insert 0 2 4 1 [] 0 0, .delete 0 2] >>= fun m => mapInitView m 7 0 0 [] 0 [] []).toOption.map
        (fun m => (move m none 4 1 3 0).toBool) = some false := by
    decide +kernel
  rw [run, ok_bind, made] at fails
  simp only [Except.toOption, Option.map_some, Option.some.injEq] at fails
  rcases moves m none 4 1 3 0 2 0 3 pictured.wf room pictured.setFaithful
    ((moveFits_iff pictured.wf).mpr check) with ⟨m', moved, _⟩
  simp [moved, Except.toBool] at fails

end Treedb
