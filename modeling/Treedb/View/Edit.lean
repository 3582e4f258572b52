import Treedb.Tree.Record
import Treedb.View.Life

/-!
# Editing the tree under its views

`insert`, `move` and `delete` bring each view into line with the edited tree in a loop over the
views. A round of the loop changes one view only, so the views that come later are still as they
were at the beginning. A view is judged by the tree before the edit until its round, and by the
tree after the edit from then on.
-/

namespace Treedb

open Forest Overlay Outcome Treedb.Tree

/-! ## The loop over the views -/

section Loop

variable {want : Demands} {t t' : Tree} {o o' : Overlay} {list : List VbranchPtr}

/-- The views are registered as before, and branches that left the index are as before. -/
structure Overlay.SameRegistry (t : Tree) (o o' : Overlay) : Prop where
  view_id : ∀ w, (o'.views w).id = (o.views w).id
  viewNext : o'.viewNext = o.viewNext
  viewIndex : o'.viewIndex = o.viewIndex
  gone : ∀ b, ¬t.Indexed b → o'.vbranchList b = o.vbranchList b

theorem Overlay.SameRegistry.refl (t : Tree) (o : Overlay) : SameRegistry t o o :=
  ⟨fun _ => rfl, rfl, rfl, fun _ _ => rfl⟩

theorem Overlay.SameRegistry.trans {o'' : Overlay} (first : SameRegistry t o o')
    (second : SameRegistry t o' o'') : SameRegistry t o o'' where
  view_id := fun w => (second.view_id w).trans (first.view_id w)
  viewNext := second.viewNext.trans first.viewNext
  viewIndex := second.viewIndex.trans first.viewIndex
  gone := fun b out => (second.gone b out).trans (first.gone b out)

theorem Overlay.Within.sameRegistry {v : ViewPtr} (within : Within t v o o') :
    SameRegistry t o o' where
  view_id := by
    intro w
    by_cases same : w = v
    · rw [same, within.view_id]
    · rw [within.views w same]
  viewNext := within.viewNext
  viewIndex := within.viewIndex
  gone := within.gone

/-- A loop over vbranches of different views turns what each view showed into what it shall show. -/
theorem foldlM_views (want : Demands) (t t' : Tree)
    {f : Overlay → VbranchPtr → Except Fault Overlay} (nodup : (list.map VbranchPtr.view).Nodup)
    (step : ∀ vb o₁ o₂, vb ∈ list → Keeps vb.view o o₁ → SameRegistry t o o₁ → f o₁ vb = .ok o₂ →
      Shows want t' o₂ vb.view {t'.branch} ∧ Within t vb.view o₁ o₂)
    (run : list.foldlM f o = .ok o') :
    (∀ vb ∈ list, Shows want t' o' vb.view {t'.branch}) ∧
      (∀ w, w ∉ list.map VbranchPtr.view → Keeps w o o') ∧ SameRegistry t o o' := by
  refine foldlM_keyed (F := Keeps) (Q := fun w o => Shows want t' o w {t'.branch})
    (R := SameRegistry t) Keeps.refl (fun _ _ _ _ first => first.trans) (SameRegistry.refl t)
    (fun _ _ _ first => first.trans) (fun _ _ _ shows => shows.keeps) nodup ?_ run
  intro vb o₁ o₂ member keeps registry moved
  rcases step vb o₁ o₂ member keeps registry moved with ⟨shows, within⟩
  exact ⟨shows, fun w other => within.keeps other, within.sameRegistry⟩

/-- If no view has two vbranches of a branch, they belong to different views. -/
theorem nodup_views {b : BranchPtr} (alone : ∀ vb ∈ o.vbranchList b, (o.mine vb.view b).length ≤ 1) :
    ((o.vbranchList b).map VbranchPtr.view).Nodup := by
  rw [List.nodup_iff_count_le_one]
  intro w
  by_cases used : w ∈ (o.vbranchList b).map VbranchPtr.view
  · rcases List.mem_map.mp used with ⟨vb, member, own⟩
    have short := alone vb member
    rw [own, Overlay.mine, ← List.countP_eq_length_filter] at short
    rw [List.count, List.countP_map]
    exact short
  · rw [List.count_eq_zero_of_not_mem used]
    exact Nat.zero_le 1

theorem Sound.nodup_views {b : BranchPtr} (sound : Sound want t o) (indexed : t.Indexed b) :
    ((o.vbranchList b).map VbranchPtr.view).Nodup := by
  apply Treedb.nodup_views
  intro vb member
  rcases sound.attached indexed member with ⟨id, found⟩
  exact (sound.shows found).alone indexed

/-- Every registered view takes part in a loop over the vbranches of the root. -/
theorem Sound.view_mem {id : UInt32} {v : ViewPtr} (sound : Sound want t o)
    (found : viewIndexGet o id = some v) : (o.views v).vbranch ∈ o.vbranchList t.branch ∧
      ((o.views v).vbranch).view = v := by
  have root := (sound.shows found).root
  exact mem_mine.mp (List.mem_of_head? (stand_eq_some.mp root).2)

/-- The loop turns sound views of one tree into sound views of the other. -/
theorem Sound.turn (sound : Sound want t o)
    (known : ∀ vb ∈ list, ∃ id, viewIndexGet o id = some vb.view)
    (turned : ∀ vb ∈ list, Shows want t' o' vb.view {t'.branch})
    (kept : ∀ w, w ∉ list.map VbranchPtr.view → Keeps w o o') (registry : SameRegistry t o o')
    (rest : ∀ id w, viewIndexGet o id = some w → w ∉ list.map VbranchPtr.view →
      Shows want t' o' w {t'.branch})
    (indexed : ∀ b, t'.Indexed b → t.Indexed b)
    (fresh : ∀ b, t'.next ≤ b → t.next ≤ b ∧ ¬t.Indexed b)
    (closed : Sealed t' o') : Sound want t' o' where
  registered := by
    intro id w found
    rw [viewIndexGet, registry.viewIndex] at found
    rcases sound.registered found with ⟨named, allocated, _⟩
    rw [registry.view_id, registry.viewNext]
    refine ⟨named, allocated, ?_⟩
    by_cases processed : w ∈ list.map VbranchPtr.view
    · rcases List.mem_map.mp processed with ⟨vb, member, own⟩
      exact own ▸ turned vb member
    · exact rest id w found processed
  attached := by
    intro b vb inside member
    simp only [viewIndexGet, registry.viewIndex]
    by_cases processed : vb.view ∈ list.map VbranchPtr.view
    · rcases List.mem_map.mp processed with ⟨y, listed, own⟩
      rw [← own]
      exact known y listed
    · have mine : vb ∈ o'.mine vb.view b := mem_mine.mpr ⟨member, rfl⟩
      rw [(kept _ processed).mine] at mine
      exact sound.attached (indexed b inside) (mem_mine.mp mine).1
  fresh := by
    intro b beyond
    rcases fresh b beyond with ⟨beyond', out⟩
    rw [registry.gone b out]
    exact sound.fresh b beyond'
  sealed := closed

end Loop

/-! ## Linking and detaching a vbranch -/

section Link

variable {want : Demands} {t t' : Tree} {o o' : Overlay} {v : ViewPtr} {a b c : BranchPtr}
  {x y : VbranchPtr}

/-- The place where `vbranch_add` puts a vbranch: that of its branch, if the list is long enough. -/
def Overlay.linkPos (t : Tree) (o : Overlay) (x y : VbranchPtr) : ℕ :=
  insertPos (branchGetPos t (o.vmem x).branch) (o.vchildren y).length

theorem vbranchAdd_eq (short : (o.vchildren y).length ≤ 65535) :
    vbranchAdd t o x y =
      if (o.vchildren y).length = 65535 then .error .childOverflow
      else .ok ((o.modify x fun vb => { vb with parent := some y }).modify y fun vb =>
        { vb with childList := (o.vchildren y).insertIdx (o.linkPos t x y) x }) := by
  have same : ((o.modify x fun vb => { vb with parent := some y }).vmem y).childList =
      o.vchildren y := by
    rw [modify_vmem]
    split
    · rename_i isX
      rw [isX]
      rfl
    · rfl
  have stood : ((o.modify x fun vb => { vb with parent := some y }).vmem x).branch =
      (o.vmem x).branch := by
    rw [modify_vmem, if_pos rfl]
  unfold vbranchAdd
  dsimp only
  rw [same, stood, childsWith_eq _ _ _ short]
  split
  · rfl
  · rfl

/-- `vbranch_add` puts the vbranch into the list of its new parent. -/
theorem vbranchAdd_spec (ownX : x.view = v) (ownY : y.view = v) (ne : x ≠ y)
    (short : (o.vchildren y).length ≤ 65535) (run : vbranchAdd t o x y = .ok o') :
    Relinks v o o' ∧ o'.outQ = o.outQ ∧
      (∀ z, o'.vchildren z =
        if z = y then (o.vchildren y).insertIdx (o.linkPos t x y) x else o.vchildren z) ∧
      ∀ z, o'.vparent z = if z = x then some y else o.vparent z := by
  rw [vbranchAdd_eq short] at run
  split at run
  · simp at run
  · rw [← Except.ok.inj run]
    refine ⟨(relinks_modify o ownX rfl).trans (relinks_modify _ ownY rfl), rfl, ?_, ?_⟩
    · intro z
      rw [vchildren, modify_vmem]
      split
      · rfl
      · rw [modify_vmem]
        split <;> rfl
    · intro z
      rw [vparent, modify_vmem, modify_vmem]
      by_cases isX : z = x
      · subst isX
        simp [ne]
      · by_cases isY : z = y
        · subst isY
          simp [isX, vparent]
        · simp [isX, isY, vparent]

theorem vbranchAdd_total (room : (o.vchildren y).length < 65535) :
    ∃ o', vbranchAdd t o x y = .ok o' := by
  rw [vbranchAdd_eq room.le, if_neg room.ne]
  exact ⟨_, rfl⟩

/-- `vbranch_add` edits the view of the two vbranches, whatever its lists are. -/
theorem vbranchAdd_relinks (ownX : x.view = v) (ownY : y.view = v)
    (run : vbranchAdd t o x y = .ok o') : Relinks v o o' := by
  rcases bind_eq_ok.mp run with ⟨childs, _, run⟩
  rw [← Except.ok.inj run]
  exact (relinks_modify o ownX rfl).trans (relinks_modify _ ownY rfl)

/-- A loose vbranch is linked below that of its parent. -/
theorem Shows.link (shows : Shows want t o v {c, t.branch}) (wf : t.WellFormed)
    (present : stand t o v c = some x) (step : t.parent c = some a)
    (above : stand t o v a = some y)
    (inOrder : want.order → ((o.vchildren y).insertIdx (o.linkPos t' x y) x).Sublist
      ((t.children a).filterMap (stand t o v)))
    (run : vbranchAdd t' o x y = .ok o') :
    Shows want t o' v {t.branch} ∧ Relinks v o o' ∧ o'.outQ = o.outQ := by
  have ne : x ≠ y := by
    rintro rfl
    rw [shows.shadow.inj present above] at step
    exact wf.acyclic.parent_ne step rfl
  have short := (shows.down_length_le wf above).trans (wf.children_length_le a)
  rcases vbranchAdd_spec (view_of_stand present) (view_of_stand above) ne short run with
    ⟨relinks, outQ, downs, ups⟩
  have inside : o.linkPos t' x y ≤ (o.vchildren y).length := insertPos_le _ _
  have low : ∀ d, t.parent d = some a → d ≠ c → d ∉ ({c, t.branch} : Set BranchPtr) := by
    intro d child other
    rw [Set.mem_insert_iff, Set.mem_singleton_iff, not_or]
    refine ⟨other, ?_⟩
    exact wf.ne_root child
  have out : x ∉ o.vchildren y := by
    intro member
    rcases (shows.shadow.mem_down above).mp member with ⟨d, _, top, there⟩
    rw [shows.shadow.inj there present] at top
    exact top (Set.mem_insert c _)
  refine ⟨?_, relinks, outQ⟩
  refine shows.adopt wf above ?_ ?_ relinks downs ?_ ?_ inOrder
  · intro z
    rw [List.mem_insertIdx inside, shows.shadow.mem_down above]
    constructor
    · rintro (rfl | ⟨d, child, _, there⟩)
      · exact ⟨c, step, present⟩
      · exact ⟨d, child, there⟩
    · rintro ⟨d, child, there⟩
      by_cases isC : d = c
      · rw [isC, present, Option.some.injEq] at there
        exact .inl there.symm
      · exact .inr ⟨d, child, low d child isC, there⟩
  · rw [(List.perm_insertIdx x (o.vchildren y) inside).nodup_iff, List.nodup_cons]
    exact ⟨out, shows.shadow.nodup above⟩
  · intro z
    simp only [ups, List.mem_insertIdx inside]
    by_cases isX : z = x
    · simp [isX]
    · simp only [isX, if_false, false_or]
      split
      · rename_i member
        rcases (shows.shadow.mem_down above).mp member with ⟨d, child, top, there⟩
        rcases shows.shadow.up_eq there top with ⟨p, w, child', aboveD, link⟩
        rw [child, Option.some.injEq] at child'
        rw [← child', above, Option.some.injEq] at aboveD
        rw [link, aboveD]
      · rfl
  · intro d
    simp only [Set.mem_singleton_iff, Set.mem_insert_iff]
    constructor
    · rintro rfl
      exact ⟨.inr rfl, by simp [wf.root_parent]⟩
    · rintro ⟨rfl | top, other⟩
      · exact absurd step other
      · exact top

theorem Shows.vbranchDetach_eq (shows : Shows want t o v {t.branch})
    (present : stand t o v b = some x) (low : b ≠ t.branch) :
    ∃ p z, t.parent b = some p ∧ stand t o v p = some z ∧ o.vparent x = some z ∧
      vbranchDetach o x = (o.modify z fun vb => { vb with
        childList := (o.vchildren z).filter fun c => decide (c ≠ x) }).modify x
          fun vb => { vb with parent := none } := by
  rcases shows.shadow.up_eq present low with ⟨p, z, step, above, link⟩
  refine ⟨p, z, step, above, link, ?_⟩
  have member : x ∈ o.vchildren z := (shows.shadow.mem_down above).mpr ⟨b, step, low, present⟩
  have erased : ((o.vchildren z).filter fun c => decide (c ≠ x)).take ((o.vchildren z).length - 1) =
      (o.vchildren z).filter fun c => decide (c ≠ x) := by
    apply List.take_of_length_le
    apply Nat.le_sub_one_of_lt
    apply List.length_filter_lt_length_iff_exists.mpr
    exact ⟨x, member, by simp⟩
  rw [vbranchDetach, show (o.vmem x).parent = some z from link]
  simp only [Overlay.modify]
  rw [show (o.vmem z).childList = o.vchildren z from rfl, erased]

theorem modify_modify_vchildren (o : Overlay) (x z : VbranchPtr) (list : List VbranchPtr)
    (y : VbranchPtr) :
    ((o.modify z fun vb => { vb with childList := list }).modify x
      fun vb => { vb with parent := none }).vchildren y =
      if y = z then list else o.vchildren y := by
  rw [vchildren, modify_vmem, modify_vmem]
  by_cases isZ : y = z
  · subst isZ
    by_cases isX : y = x
    · simp [isX]
    · simp [isX]
  · by_cases isX : y = x
    · subst isX
      simp [isZ, vchildren]
    · simp [isZ, isX, vchildren]

/-- A vbranch taken out of a view is missing from the list it was in, and from no other. -/
theorem Shows.vbranchDetach_vchildren (shows : Shows want t o v {t.branch})
    (present : stand t o v b = some x) (low : b ≠ t.branch) (above : stand t o v a = some y) :
    (vbranchDetach o x).vchildren y = (o.vchildren y).erase x := by
  rcases shows.vbranchDetach_eq present low with ⟨p, z, step, aboveP, link, result⟩
  rw [result, modify_modify_vchildren]
  split
  · rename_i isZ
    rw [isZ, (shows.shadow.nodup aboveP).erase_eq_filter]
    apply List.filter_congr
    intro c _
    by_cases isX : c = x <;> simp [isX]
  · rename_i other
    rw [List.erase_of_not_mem]
    intro member
    rcases (shows.shadow.mem_down above).mp member with ⟨c, child, _, found⟩
    rw [shows.shadow.inj found present, step, Option.some.injEq] at child
    rw [child, above, Option.some.injEq] at aboveP
    exact other aboveP

/-- `vbranch_detach` makes a vbranch loose. -/
theorem Shows.detach (shows : Shows want t o v {t.branch}) (present : stand t o v b = some x)
    (low : b ≠ t.branch) :
    Shows want t (vbranchDetach o x) v {b, t.branch} ∧ Relinks v o (vbranchDetach o x) ∧
      (vbranchDetach o x).outQ = o.outQ := by
  rcases shows.vbranchDetach_eq present low with ⟨p, z, step, above, link, result⟩
  have relinks : Relinks v o (vbranchDetach o x) := by
    rw [result]
    exact (relinks_modify o (view_of_stand above) rfl).trans
      (relinks_modify _ (view_of_stand present) rfl)
  have rootNe : (o.views v).vbranch ≠ x := by
    rintro rfl
    exact low (shows.shadow.inj present shows.root)
  refine ⟨?_, relinks, by rw [result]; rfl⟩
  have downs : ∀ y, (vbranchDetach o x).vchildren y =
      if y = z then (o.vchildren y).filter fun w => decide (w ≠ x) else o.vchildren y := by
    intro y
    rw [result, modify_modify_vchildren]
    split
    · rename_i isZ
      rw [isZ]
    · rfl
  have ups : ∀ y, y ≠ x → (vbranchDetach o x).vparent y = o.vparent y := by
    intro y other
    rw [result, vparent, modify_vmem, if_neg other, modify_vmem]
    split <;> rfl
  apply shows.relink relinks.toAlike (shows.shadow.loosen present low link downs ups)
  · exact Set.mem_insert_of_mem _ rfl
  · rw [ups _ rootNe]
    exact shows.rootless
  · intro vb absent
    rw [downs, if_neg]
    rintro rfl
    exact absent p above
  · intro order c y there
    rw [downs]
    split
    · exact List.filter_sublist.trans (shows.sorted order there)
    · exact shows.sorted order there

/-- The tree is asked for the id of the branch only. -/
theorem addVbranch_congr {s : Tree} {new : Vbranch}
    (sameId : (s.mem new.branch).id = (t.mem new.branch).id) :
    addVbranch s o v new = addVbranch t o v new := by
  simp [addVbranch, vbranchIndexPut, vbranchNew, sameId]

/-- `insert` and `move` attach a new vbranch after linking it, which makes no difference. -/
theorem vbranchAdd_addVbranch {new : Vbranch} (other : y ≠ ⟨v, o.vnext⟩)
    (run : vbranchAdd t (vbranchIndexPut t (vbranchNew o v new).1 v ⟨v, o.vnext⟩) ⟨v, o.vnext⟩ y =
      .ok o') :
    vbranchAdd t (addVbranch t o v new).1 ⟨v, o.vnext⟩ y =
      .ok (branchAttachVbranch o' new.branch ⟨v, o.vnext⟩) := by
  rcases bind_eq_ok.mp run with ⟨list, inserted, run⟩
  simp only [pure_eq_ok, Except.ok.injEq] at run
  have attached : (o'.vmem ⟨v, o.vnext⟩).branch = new.branch := by
    rw [← run, modify_vmem, if_neg other.symm, modify_vmem, if_pos rfl]
    simp [vbranchIndexPut, vbranchNew]
  rw [branchAttachVbranch_eq attached, addVbranch_eq, ← run]
  apply bind_eq_ok.mpr
  exact ⟨list, inserted, rfl⟩

/-- A new vbranch for a hidden branch, linked below that of its parent. -/
theorem Shows.addLinked {s : Tree} (shows : Shows want t o v {t.branch}) (wf : t.WellFormed)
    (indexed : t.Indexed c) (absent : stand t o v c = none) (step : t.parent c = some a)
    (above : stand t o v a = some y) (sameId : (s.mem c).id = (t.mem c).id)
    (inOrder : want.order →
      ((o.vchildren y).insertIdx (insertPos (branchGetPos s c) (o.vchildren y).length)
        ⟨v, o.vnext⟩).Sublist
      ((t.children a).filterMap (Function.update (stand t o v) c (some ⟨v, o.vnext⟩))))
    (run : vbranchAdd s (vbranchIndexPut s (vbranchNew o v { branch := c, parent := some y }).1 v
      ⟨v, o.vnext⟩) ⟨v, o.vnext⟩ y = .ok o') :
    Shows want t (branchAttachVbranch o' c ⟨v, o.vnext⟩) v {t.branch} ∧
      Within t v o (branchAttachVbranch o' c ⟨v, o.vnext⟩) ∧
      (branchAttachVbranch o' c ⟨v, o.vnext⟩).outQ = o.outQ ∧
      stand t (branchAttachVbranch o' c ⟨v, o.vnext⟩) v =
        Function.update (stand t o v) c (some ⟨v, o.vnext⟩) ∧
      ∀ d, d ≠ c → (branchAttachVbranch o' c ⟨v, o.vnext⟩).vbranchList d = o.vbranchList d := by
  have old : y ≠ ⟨v, o.vnext⟩ := by
    rintro rfl
    exact (Nat.lt_irrefl _ (shows.cell_lt above)).elim
  have linked := vbranchAdd_addVbranch old run
  rw [addVbranch_congr (t := t) sameId] at linked
  rcases shows.add wf { branch := c, parent := some y } indexed absent rfl with ⟨stands, added⟩
  have other : a ≠ c := wf.acyclic.parent_ne step
  have cell : (addVbranch t o v { branch := c, parent := some y }).1.vchildren y =
      o.vchildren y := by
    rw [vchildren, addVbranch_vmem, if_neg old, vchildren]
  have place : (addVbranch t o v { branch := c, parent := some y }).1.linkPos s ⟨v, o.vnext⟩ y =
      insertPos (branchGetPos s c) (o.vchildren y).length := by
    rw [linkPos, addVbranch_vmem, if_pos rfl, cell]
  rcases added.link wf (by rw [stands, Function.update_self]) step
    (by rw [stands, Function.update_of_ne other, above]) (by
      intro order
      rw [place, cell, stands]
      exact inOrder order) linked with ⟨after, relinks, outQ⟩
  refine ⟨after, ?_, outQ, ?_, ?_⟩
  · exact (addVbranch_within o v { branch := c, parent := some y } indexed).trans (relinks.within t)
  · rw [relinks.stand t v, stands]
  · intro d ne
    rw [relinks.vbranchList, addVbranch_eq]
    exact Function.update_of_ne ne _ _

end Link

/-! ## Views of an edited tree -/

section Retree

variable {want : Demands} {t t' : Tree} {o : Overlay} {v : ViewPtr} {tops : Set BranchPtr}
  {pb b opb npb p x : BranchPtr} {vb : VbranchPtr} {new : Branch} {i : ℕ}

theorem Tree.WellFormed.grow_apply (wf : t.WellFormed) (allowed : (Edit.grow pb new i).Allowed t)
    (x : BranchPtr) :
    ((Edit.grow pb new i).apply t).parent x = (if x = t.next then some pb else t.parent x) ∧
      (x ≠ pb → ((Edit.grow pb new i).apply t).children x = t.children x) ∧
      (x ≠ t.next → (((Edit.grow pb new i).apply t).mem x).id = (t.mem x).id) ∧
      (((Edit.grow pb new i).apply t).Indexed x ↔ x = t.next ∨ t.Indexed x) := by
  rcases allowed with ⟨fresh, _, _, unused, _, _⟩
  have mem := Edit.grow_apply_mem t pb new i
  refine ⟨?_, ?_, ?_, ?_⟩
  · rw [parent, mem]
    exact wf.grow_parent fresh x
  · intro other
    rw [children, mem]
    exact (wf.grow_children fresh x).trans (if_neg other)
  · intro other
    rw [mem, grow_id, if_neg other]
  · simp only [Indexed, Edit.grow_apply_index, grow_index]
    constructor
    · rintro ⟨k, stored⟩
      split at stored
      · exact .inl (Option.some.inj stored).symm
      · exact .inr ⟨k, stored⟩
    · rintro (rfl | ⟨k, stored⟩)
      · exact ⟨new.id, if_pos rfl⟩
      · refine ⟨k, ?_⟩
        rw [if_neg, stored]
        rintro rfl
        simp [unused] at stored

theorem grow_apart (wf : t.WellFormed) (allowed : (Edit.grow pb new i).Allowed t) :
    ¬Anc t.parent pb t.next := by
  rcases allowed with ⟨fresh, _, indexed, _⟩
  have apart := (wf.canLink_alloc fresh (wf.indexed_lt indexed)).apart
  rw [wf.alloc_parent fresh] at apart
  exact apart

theorem grow_anc (wf : t.WellFormed) (allowed : (Edit.grow pb new i).Allowed t) (y : BranchPtr) :
    Anc ((Edit.grow pb new i).apply t).parent pb y ↔ Anc t.parent pb y := by
  apply anc_iff_of_not_anc _ (grow_apart wf allowed)
  intro z other
  rw [(wf.grow_apply allowed z).1, if_neg other]

theorem Tree.WellFormed.grow_apply_children (wf : t.WellFormed)
    (allowed : (Edit.grow pb new i).Allowed t) (x : BranchPtr) :
    ((Edit.grow pb new i).apply t).children x =
      if x = pb then (t.children x).insertIdx i t.next else t.children x := by
  rw [children, Edit.grow_apply_mem]
  exact wf.grow_children allowed.1 x

theorem Edit.grow_apply_next (t : Tree) (pb : BranchPtr) (new : Branch) (i : ℕ) :
    ((Edit.grow pb new i).apply t).next = t.next + 1 :=
  (ioSaveBranchData_fields _ _).2.1

theorem stand_grow (wf : t.WellFormed) (allowed : (Edit.grow pb new i).Allowed t)
    (bare : o.mine v t.next = []) (x : BranchPtr) :
    stand ((Edit.grow pb new i).apply t) o v x = stand t o v x := by
  have hidden : ∀ t₁ : Tree, stand t₁ o v t.next = none := by
    intro t₁
    rw [stand]
    split
    · rw [viewGetVbranch_eq, bare]
      rfl
    · rfl
  by_cases isNew : x = t.next
  · rw [isNew, hidden, hidden]
  · apply stand_congr _ rfl
    rw [(wf.grow_apply allowed x).2.2.2]
    simp [isNew]

/-- A branch that nobody shows may be added anywhere. -/
theorem Shows.grow (shows : Shows want t o v {t.branch}) (wf : t.WellFormed)
    (allowed : (Edit.grow pb new i).Allowed t) (bare : o.mine v t.next = []) :
    Shows want ((Edit.grow pb new i).apply t) o v {t.branch} := by
  have facts := wf.grow_apply allowed
  have stands := stand_grow wf allowed bare
  have old : ∀ x, stand t o v x ≠ none → x ≠ t.next := by
    rintro x there rfl
    rcases Option.ne_none_iff_exists'.mp there with ⟨vb, present⟩
    exact Nat.lt_irrefl _ (wf.indexed_lt (stand_eq_some.mp present).1)
  refine shows.retree (Edit.apply_branch t _) ?_ rfl (stands _) ?_ ?_ ?_ ?_ ?_
  · rw [show stand ((Edit.grow pb new i).apply t) o v = stand t o v from funext stands]
    apply shows.shadow.congr_parent
    intro x _ there
    rw [(facts x).1, if_neg (old x there)]
  · intro x vb there
    rw [stands] at there
    exact ⟨there, (facts x).2.2.1 (old x (by simp [there]))⟩
  · intro x indexed
    rcases (facts x).2.2.2.mp indexed with rfl | before
    · simp [bare]
    · exact shows.alone before
  · intro _ x vb there
    exact .inl (by rw [stands, there])
  · rintro vb ⟨view, cell, allocated, gone, childless, folded⟩
    have other : (o.vmem vb).branch ≠ t.next := Nat.ne_of_lt allocated
    refine ⟨view, cell, ?_, ?_, ?_, folded⟩
    · rw [Edit.grow_apply_next]
      exact Nat.lt_succ_of_lt allocated
    · rw [(facts _).2.2.2]
      simp [other, gone]
    · rw [(facts _).2.1, childless]
      rintro same
      exact gone (same ▸ allowed.2.2.1)
  · intro order x vb there
    rw [stands] at there
    rw [show stand ((Edit.grow pb new i).apply t) o v = stand t o v from funext stands]
    apply (shows.sorted order there).trans
    apply List.Sublist.filterMap
    rw [wf.grow_apply_children allowed]
    split
    · exact List.sublist_insertIdx _ _ _
    · exact List.Sublist.refl _

theorem Tree.rehome_apply (t : Tree) (b opb npb : BranchPtr) (i : ℕ) (x : BranchPtr) :
    ((Edit.rehome b opb npb i).apply t).parent x = (if x = b then some npb else t.parent x) ∧
      (((Edit.rehome b opb npb i).apply t).mem x).id = (t.mem x).id ∧
      (((Edit.rehome b opb npb i).apply t).Indexed x ↔ t.Indexed x) :=
  ⟨rehome_parent t b opb npb i x, rfl, Iff.rfl⟩

theorem Tree.rehome_apply_children (t : Tree) (b opb npb : BranchPtr) (i : ℕ) (bare : t.children x = [])
    (other : x ≠ npb) : ((Edit.rehome b opb npb i).apply t).children x = [] := by
  change (t.rehome b opb npb i).children x = []
  rw [rehome_children, if_neg other, Shape.unlink_children]
  split <;> simp [bare]

/-- A branch that is hidden or whose vbranch is loose may change its place. -/
theorem Shows.rehome (shows : Shows want t o v tops)
    (allowed : (Edit.rehome b opb npb i).Allowed t) (loose : stand t o v b = none ∨ b ∈ tops)
    (unordered : ¬want.order) :
    Shows want ((Edit.rehome b opb npb i).apply t) o v tops := by
  have facts := t.rehome_apply b opb npb i
  have stands : stand ((Edit.rehome b opb npb i).apply t) o v = stand t o v := rfl
  refine shows.retree (Edit.apply_branch t _) ?_ shows.root_top rfl ?_ ?_ ?_ ?_
    fun order => absurd order unordered
  · rw [stands]
    apply shows.shadow.congr_parent
    intro x low there
    rw [(facts x).1, if_neg]
    rintro rfl
    rcases loose with hidden | top
    · exact there hidden
    · exact low top
  · exact fun x vb there => ⟨there, rfl⟩
  · exact fun x indexed => shows.alone indexed
  · exact fun _ x vb there => .inl there
  · rintro vb ⟨view, cell, allocated, gone, childless, folded⟩
    refine ⟨view, cell, allocated, gone, t.rehome_apply_children b opb npb i childless ?_, folded⟩
    rintro rfl
    exact gone allowed.2.1

theorem Tree.WellFormed.forget_apply (wf : t.WellFormed) (step : t.parent b = some p)
    (x : BranchPtr) :
    ((Edit.forget b p).apply t).parent x = (if x = b then none else t.parent x) ∧
      (t.children x = [] → ((Edit.forget b p).apply t).children x = []) ∧
      (x ≠ b → (((Edit.forget b p).apply t).mem x).id = (t.mem x).id) ∧
      (((Edit.forget b p).apply t).Indexed x ↔ x ≠ b ∧ t.Indexed x) := by
  refine ⟨forget_parent t b p x, ?_, ?_, ?_⟩
  · intro bare
    change (t.forget b p).children x = []
    rw [forget_children, bare]
    simp
  · intro other
    exact (forget_id t b p x).trans (if_neg other)
  · change (∃ k, (t.forget b p).branchIndex k = some x) ↔ _
    simp only [forget_index]
    constructor
    · rintro ⟨k, stored⟩
      split at stored
      · simp at stored
      · rename_i other
        refine ⟨?_, k, stored⟩
        rintro rfl
        exact other (wf.index_spec stored).1.symm
    · rintro ⟨other, k, stored⟩
      refine ⟨k, ?_⟩
      rw [if_neg, stored]
      rintro rfl
      rw [wf.index_of_parent step, Option.some.injEq] at stored
      exact other stored.symm

/-- A branch that is forgotten is shown no more. -/
theorem stand_forget (wf : t.WellFormed) (step : t.parent b = some p) (o : Overlay) (v : ViewPtr) :
    stand ((Edit.forget b p).apply t) o v = Function.update (stand t o v) b none := by
  have indexed := fun x => (wf.forget_apply step x).2.2.2
  funext x
  by_cases isB : x = b
  · rw [isB, Function.update_self, stand, if_neg]
    rw [indexed]
    simp
  · rw [Function.update_of_ne isB]
    apply stand_congr _ rfl
    rw [indexed]
    simp [isB]

/-- A hidden branch may be forgotten. -/
theorem Shows.forget_hidden (shows : Shows want t o v {t.branch}) (wf : t.WellFormed)
    (step : t.parent b = some p) (hidden : stand t o v b = none) (unordered : ¬want.order) :
    Shows want ((Edit.forget b p).apply t) o v {t.branch} := by
  have facts := wf.forget_apply step
  have stands : stand ((Edit.forget b p).apply t) o v = stand t o v := by
    rw [stand_forget wf step, Function.update_eq_self_iff, hidden]
  have other : ∀ x, stand t o v x ≠ none → x ≠ b := by
    rintro x there rfl
    exact there hidden
  refine shows.retree (Edit.apply_branch t _) ?_ rfl (congrFun stands _) ?_ ?_ ?_ ?_
    fun order => absurd order unordered
  · rw [stands]
    apply shows.shadow.congr_parent
    intro x _ there
    rw [(facts x).1, if_neg (other x there)]
  · intro x vb there
    rw [stands] at there
    exact ⟨there, (facts x).2.2.1 (other x (by simp [there]))⟩
  · intro x indexed
    exact shows.alone ((facts x).2.2.2.mp indexed).2
  · intro _ x vb there
    exact .inl (by rw [stands, there])
  · rintro vb ⟨view, cell, allocated, gone, childless, folded⟩
    refine ⟨view, cell, allocated, ?_, (facts _).2.1 childless, folded⟩
    rw [(facts _).2.2.2]
    exact fun both => gone both.2

/-- A leaf whose vbranch was taken out of the view may be forgotten, and leaves the vbranch behind. -/
theorem Shows.forget_loose (shows : Shows want t o v {b, t.branch}) (wf : t.WellFormed)
    (step : t.parent b = some p) (present : stand t o v b = some vb) (leaf : t.children b = [])
    (allowed : want.index → want.stale) (unordered : ¬want.order) :
    Shows want ((Edit.forget b p).apply t) o v {t.branch} := by
  have facts := wf.forget_apply step
  have low : t.branch ≠ b := (wf.ne_root step).symm
  have stands := stand_forget wf step o v
  have childless : ∀ c, t.parent c ≠ some b := by
    intro c child
    have member := wf.mirrors.mem_iff.mpr child
    simp [leaf] at member
  refine shows.retree (Edit.apply_branch t _) ?_ rfl
    (by rw [stands, Function.update_of_ne low]) ?_ ?_ ?_ ?_ fun order => absurd order unordered
  · rw [stands]
    have dropped : Shadow t.parent {t.branch} (Function.update (stand t o v) b none) o.vparent
        o.vchildren := shows.shadow.drop (Set.mem_insert b _)
      (fun c child => absurd child (childless c)) (by
        intro x other
        simp [other])
    apply dropped.congr_parent
    intro x _ there
    rw [(facts x).1, if_neg]
    rintro rfl
    simp at there
  · intro x y there
    rw [stands, Function.update_apply] at there
    split at there
    · simp at there
    · rename_i other
      exact ⟨there, (facts x).2.2.1 other⟩
  · intro x indexed
    exact shows.alone ((facts x).2.2.2.mp indexed).2
  · intro index x y there
    by_cases isB : x = b
    · rw [isB, present, Option.some.injEq] at there
      subst there
      refine .inr ⟨allowed index, view_of_stand present, shows.cell_lt present, ?_, ?_, ?_, ?_⟩
      · rw [shows.branch_eq present]
        exact (wf.parent_lt step).1
      · rw [shows.branch_eq present, (facts b).2.2.2]
        simp
      · rw [shows.branch_eq present]
        exact (facts b).2.1 leaf
      · apply List.eq_nil_iff_forall_not_mem.mpr
        intro z member
        rcases (shows.shadow.mem_down present).mp member with ⟨c, child, _⟩
        exact childless c child
    · left
      rw [stands, Function.update_of_ne isB, there]
  · rintro y ⟨view, cell, allocated, gone, bare, folded⟩
    refine ⟨view, cell, allocated, ?_, (facts _).2.1 bare, folded⟩
    rw [(facts _).2.2.2]
    exact fun both => gone both.2

end Retree

end Treedb
