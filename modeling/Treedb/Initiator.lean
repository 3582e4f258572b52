import Treedb.Inserting
import Treedb.View.Climb

/-!
# Inserts for a view

The view that asks for an insert is expanded to a parent that it hides, and it always gets a vbranch
for the new branch. So it is left with one child among several where it shows the parent folded. An
insert is not made at all if the parent is full, or where a climb does not end.
-/

namespace Treedb

open Forest Overlay Outcome Treedb.Tree

section Asking

variable {m m' : Map} {view : Option ViewPtr} {v w : ViewPtr} {parentId branchId : UInt64}
  {pos : UInt32} {text : CString} {mark doc : UInt64} {pb nb : BranchPtr} {o₁ o₂ : Overlay}

/-! ## The expansion -/

/-- A view is not expanded to a branch without a parent. -/
theorem insertExpand_top {t : Tree} (top : t.parent pb = none) (o : Overlay) (v : ViewPtr)
    (pos : UInt32) : insertExpand t o (some v) pb pos = .ok o := by
  have parent : (t.mem pb).parent = none := top
  cases found : viewGetVbranch o v pb with
  | some x => simp only [insertExpand, found]
  | none =>
      simp only [insertExpand, found, viewExpandTo, expandPath, parent, ok_bind, pure_eq_ok, if_true,
        expandChildren]
      simp

theorem insertExpand_ok {t : Tree} {o : Overlay} (consistent : Consistent t o v) (wf : t.WellFormed)
    (low : Anc t.parent pb t.branch) (pos : UInt32) :
    ∃ o', insertExpand t o (some v) pb pos = .ok o' := by
  cases found : viewGetVbranch o v pb with
  | some x => exact ⟨o, by simp only [insertExpand, found]⟩
  | none =>
      have shows := (consistent.setFaithful wf).shows wf
      rcases (viewExpandTo_ok_iff wf true).mpr (.inr (shows.meets wf low)) with ⟨⟨o', r⟩, expanded⟩
      simp only [insertExpand, found, expanded, ok_bind]
      cases r with
      | none => exact ⟨_, rfl⟩
      | some y => exact ⟨_, rfl⟩

/-- The view that asks is expanded to the parent, which then lists all its children. -/
theorem insertExpand_consistent {t : Tree} {o o' : Overlay} (consistent : Consistent t o v)
    (wf : t.WellFormed) (place : Anc t.parent pb t.branch ∨ t.parent pb = none)
    (run : insertExpand t o (some v) pb pos = .ok o') :
    Consistent t o' v ∧ (Folded t o' v pb ↔ Folded t o v pb) ∧
      ∀ b, ¬t.Indexed b → o'.vbranchList b = o.vbranchList b := by
  rcases place with low | top
  swap
  · rw [insertExpand_top top, Except.ok.injEq] at run
    rw [← run]
    exact ⟨consistent, Iff.rfl, fun _ _ => rfl⟩
  have alive : ∀ a, Anc t.parent pb a → t.Indexed a := fun a up => indexed_of_way wf low up
  have indexed := alive pb (anc_refl _ pb)
  unfold insertExpand at run
  dsimp only at run
  split at run
  · rw [← Except.ok.inj run]
    exact ⟨consistent, Iff.rfl, fun _ _ => rfl⟩
  · rename_i hidden
    rcases bind_eq_ok.mp run with ⟨⟨o₁, r⟩, expanded, run⟩
    rcases (consistent_iff wf).mp consistent with ⟨shows, whole⟩
    rw [← stand_of_indexed indexed] at hidden
    have searched : Searched t o v pb := fun a up => stand_of_indexed (alive a up)
    have folded : true = true → ∀ x, stand t o v pb = some x →
        ∀ c, t.parent c = some pb → stand t o v c = none := by simp [hidden]
    have whole₁ := whole.viewExpandTo shows wf searched indexed folded expanded
    rcases shows.viewExpandTo wf searched indexed (whole.clear pb) folded expanded with
      ⟨shows₁, enlarges, shown, _⟩
    have after : Shows .ordered t o' v {t.branch} ∧ stand t o' v = stand t o₁ v ∧
        o'.vbranchList = o₁.vbranchList := by
      split at run
      · rw [← Except.ok.inj run]
        exact ⟨shows₁, rfl, rfl⟩
      · rw [← Except.ok.inj run]
        exact ⟨shows₁.push _, rfl, rfl⟩
    rcases after with ⟨shows', stands, lists⟩
    refine ⟨(consistent_iff wf).mpr ⟨shows', ?_⟩, ⟨?_, ?_⟩, ?_⟩
    · rw [Whole, stands]
      exact whole₁
    · rintro ⟨pvb, attached, nothing, inner⟩
      have present := shows'.standsFor_iff.mp attached
      rcases List.exists_mem_of_ne_nil _ inner with ⟨c, member⟩
      have child := wf.mirrors.mem_iff.mp member
      have below := shows'.hidden_of_folded wf present nothing child
      rw [stands] at present below
      exact absurd below ((shown c).mpr (.inr (.inr ⟨rfl, by simp [present], child⟩)))
    · rintro ⟨pvb, attached, _⟩
      rw [shows.standsFor_iff, hidden] at attached
      simp at attached
    · intro b out
      rw [lists]
      exact enlarges.within.gone b out

/-- A vbranch alone in the list of a branch with siblings breaks the law. -/
theorem InsertStages.not_mirror
    (stages : InsertStages m m' (some v) parentId branchId pos text mark doc pb o₁ o₂)
    (wf : m.tree.WellFormed) (mirror : OrderedMirror m.tree m.overlay v)
    (folded : Folded m.tree m.overlay v pb) : ¬OrderedMirror m'.tree m'.overlay v := by
  rcases folded with ⟨pvb, stands, nothing, inner⟩
  have same : o₁ = m.overlay := by
    have shown : viewGetVbranch m.overlay v pb ≠ none := by
      rw [viewGetVbranch_eq, ne_eq, List.head?_eq_none_iff]
      exact List.ne_nil_of_mem stands.mine
    rcases Option.ne_none_iff_exists'.mp shown with ⟨x, found⟩
    have expanded := stages.expanded
    simp only [insertExpand, found, Except.ok.injEq] at expanded
    exact expanded.symm
  subst same
  have own : ∀ y ∈ m.overlay.mine v pb, y = pvb := by
    intro y member
    rcases mem_mine.mp member with ⟨attached, ofView⟩
    exact mirror.eq_of_standsFor ⟨stages.indexed, attached, ofView⟩ stands
  rcases stages.rounds wf (mirror.alone stages.indexed) (by
    intro y member
    rw [own y member, nothing]
    exact ⟨mirror.allocated stands, Nat.zero_le _⟩) with ⟨skipped, _⟩ | ⟨y, x, member, _, gains⟩
  · exact fun _ => (skipped pvb stands.mine).1 rfl
  · rw [own y member] at gains
    have single : m'.overlay.vchildren pvb = [x] := by
      rw [vchildren, gains.below, nothing]
      have start := insertPos_le ((m'.tree.children pb).idxOf m.tree.next) 0
      rw [List.length_nil, Nat.le_zero.mp start]
      rfl
    have stands' : StandsFor m'.tree m'.overlay v pb pvb := by
      have other : pb ≠ m.tree.next := (wf.indexed_lt stages.indexed).ne
      have still : pvb ∈ m'.overlay.mine v pb := by
        rw [gains.mine, if_neg other]
        exact stands.mine
      refine ⟨?_, (mem_mine.mp still).1, stands.view⟩
      rw [stages.tree]
      exact (wf.grow_apply stages.allowed pb).2.2.2.mpr (.inr stages.indexed)
    intro mirror'
    rcases mirror'.lists stands' with empty | full
    · simp [single] at empty
    · have lengths := congrArg List.length full
      rw [single, stages.tree, wf.grow_apply_children stages.allowed, if_pos rfl, List.length_map,
        List.length_map, List.length_insertIdx_of_le_length (insertPos_le _ _)] at lengths
      have some' := List.length_pos_of_ne_nil inner
      rw [List.length_singleton] at lengths
      omega

/-! ## Whether the insert is made -/

theorem insertVbranch_lists {t : Tree} {o o' : Overlay} {pvb : VbranchPtr} {b : BranchPtr}
    (run : insertVbranch t view parentId nb pos o pvb = .ok o') (other : b ≠ nb) :
    o'.vbranchList b = o.vbranchList b := by
  unfold insertVbranch at run
  split at run
  · rw [← Except.ok.inj run]
  · rcases bind_eq_ok.mp run with ⟨o₁, linked, run⟩
    have same : o₁.vbranchList = o.vbranchList :=
      (vbranchAdd_relinks (x := ⟨pvb.view, o.vnext⟩) (v := pvb.view) rfl rfl linked).vbranchList
    have kept : (branchAttachVbranch o₁ nb ⟨pvb.view, o.vnext⟩).vbranchList b = o.vbranchList b := by
      rw [branchAttachVbranch, ← same]
      exact Function.update_of_ne other _ _
    split at run
    · rw [← Except.ok.inj run]
      exact kept
    · rw [← Except.ok.inj run]
      exact kept

theorem insertVbranch_all_lists {t : Tree} {o o' : Overlay} {list : List VbranchPtr} {b : BranchPtr}
    (run : list.foldlM (insertVbranch t view parentId nb pos) o = .ok o') (other : b ≠ nb) :
    o'.vbranchList b = o.vbranchList b :=
  foldlM_invariant (fun s : Overlay => s.vbranchList b = o.vbranchList b)
    (fun _ _ _ _ before step => (insertVbranch_lists step other).trans before) rfl run

/-- A vbranch that is not full takes a new entry, or is passed over. -/
theorem insertVbranch_ok {o : Overlay} {pvb : VbranchPtr} (early : pvb.cell < o.vnext)
    (room : (o.vchildren pvb).length < 65535) (t : Tree) (view : Option ViewPtr) (parentId : UInt64)
    (nb : BranchPtr) (pos : UInt32) : ∃ o', insertVbranch t view parentId nb pos o pvb = .ok o' := by
  have other : pvb ≠ ⟨pvb.view, o.vnext⟩ := fun same => early.ne (congrArg VbranchPtr.cell same)
  unfold insertVbranch
  split
  · exact ⟨_, rfl⟩
  · have list : (vbranchIndexPut t (vbranchNew o pvb.view { branch := nb, parent := some pvb }).1
        pvb.view ⟨pvb.view, o.vnext⟩).vchildren pvb = o.vchildren pvb := by
      simp [vchildren, vbranchIndexPut, vbranchNew, other]
    rcases vbranchAdd_total (t := t) (x := ⟨pvb.view, o.vnext⟩) (by rw [list]; exact room) with
      ⟨o₁, linked⟩
    dsimp only
    rw [show (vbranchNew o pvb.view { branch := nb, parent := some pvb }).2 =
      ⟨pvb.view, o.vnext⟩ from rfl, linked, ok_bind]
    split
    · exact ⟨_, rfl⟩
    · exact ⟨_, rfl⟩

/-- What stands for the branch in the view is one vbranch at most, and not full. -/
structure Overlay.Takes (o : Overlay) (w : ViewPtr) (pb : BranchPtr) : Prop where
  alone : (o.mine w pb).length ≤ 1
  early : ∀ x ∈ o.mine w pb, x.cell < o.vnext
  room : ∀ x ∈ o.mine w pb, (o.vchildren x).length < 65535

theorem Overlay.OrderedMirror.takes {t : Tree} {o : Overlay} (mirror : OrderedMirror t o w)
    (indexed : t.Indexed pb) (room : (t.children pb).length < 65535) : Takes o w pb where
  alone := mirror.alone indexed
  early := by
    intro x member
    rcases mem_mine.mp member with ⟨attached, own⟩
    exact mirror.allocated ⟨indexed, attached, own⟩
  room := by
    intro x member
    rcases mem_mine.mp member with ⟨attached, own⟩
    rcases mirror.lists ⟨indexed, attached, own⟩ with empty | full
    · simp [empty]
    · have lengths := congrArg List.length full
      rw [List.length_map, List.length_map] at lengths
      omega

theorem Overlay.Takes.keeps {o o' : Overlay} (takes : Takes o w pb) (keeps : Keeps w o o') :
    Takes o' w pb where
  alone := by
    rw [keeps.mine]
    exact takes.alone
  early := by
    intro x member
    rw [keeps.mine] at member
    exact (takes.early x member).trans_le keeps.vnext
  room := by
    intro x member
    rw [keeps.mine] at member
    rw [vchildren, keeps.vmem x (mem_mine.mp member).2]
    exact takes.room x member

/-- The round over the vbranches of the parent ends. -/
theorem insertVbranch_all_ok {o : Overlay} (takes : ∀ w, Takes o w pb) (t : Tree)
    (view : Option ViewPtr) (parentId : UInt64) (nb : BranchPtr) (pos : UInt32) :
    ∃ o', (o.vbranchList pb).foldlM (insertVbranch t view parentId nb pos) o = .ok o' := by
  refine foldlM_keyed_total Keeps.refl (fun _ _ _ _ first => first.trans)
    (nodup_views fun vb _ => (takes vb.view).alone) ?_
  intro pvb o₁ member keeps
  have takes₁ := (takes pvb.view).keeps keeps
  have mine : pvb ∈ o₁.mine pvb.view pb := by
    rw [keeps.mine]
    exact mem_mine.mpr ⟨member, rfl⟩
  rcases insertVbranch_ok (takes₁.early pvb mine) (takes₁.room pvb mine) t view parentId nb pos with
    ⟨o₂, step⟩
  exact ⟨o₂, step, fun k other => (insertVbranch_beside step).keeps other⟩

/--
The climb of the view that asks ends, and so does that of every view that is to be told about the new
counter. Below the root all climbs end; a branch without a parent is not climbed from.
-/
def Overlay.InsertMeets (t : Tree) (o : Overlay) (v : ViewPtr) (pb : BranchPtr) : Prop :=
  t.Reachable pb ∨ t.parent pb = none ∧
    ∀ vbr ∈ o.vbranchList t.branch, vbr.view = v ∨ viewGetVbranch o vbr.view pb ≠ none

theorem insert_total (wf : m.tree.WellFormed) (consistent : Consistent m.tree m.overlay v)
    (mirrors : ∀ w, OrderedMirror m.tree m.overlay w)
    (known : branchIndexGet m.tree parentId = some pb) (unused : branchIndexGet m.tree branchId = none)
    (meets : InsertMeets m.tree m.overlay v pb) (room : (m.tree.children pb).length < 65535)
    (pos : UInt32) (text : CString) (mark doc : UInt64) :
    ∃ m' nb, insert m (some v) parentId branchId pos text mark doc = .ok (m', some nb) := by
  have indexed : m.tree.Indexed pb := ⟨parentId, known⟩
  have place : Anc m.tree.parent pb m.tree.branch ∨ m.tree.parent pb = none := by
    rw [← wf.reachable_iff]
    exact meets.imp_right And.left
  obtain ⟨o₁, expanded⟩ : ∃ o₁, insertExpand m.tree m.overlay (some v) pb pos = .ok o₁ := by
    rcases place with low | top
    · exact insertExpand_ok consistent wf low pos
    · exact ⟨_, insertExpand_top top _ v pos⟩
  have takes : ∀ w, Takes o₁ w pb := by
    intro w
    by_cases asks : w = v
    · rw [asks]
      exact (insertExpand_consistent consistent wf place expanded).1.mirror.takes indexed room
    · exact ((mirrors w).takes indexed room).keeps
        (insertExpand_keeps (fun same => asks (Option.some.inj same)) expanded)
  have grown := wf.insertBranch_eq indexed branchId pos text mark doc
  rw [if_neg room.ne] at grown
  have allowed : (Edit.grow pb (m.tree.newBranch branchId text mark doc)
      (insertPos pos.toInt32.toInt (m.tree.children pb).length)).Allowed m.tree :=
    ⟨newBranch_fresh .., rfl, indexed, unused, room, insertPos_le _ _⟩
  have parents := (wf.grow_apply allowed pb).1
  have root := Edit.apply_branch m.tree (Edit.grow pb (m.tree.newBranch branchId text mark doc)
    (insertPos pos.toInt32.toInt (m.tree.children pb).length))
  generalize (Edit.grow pb (m.tree.newBranch branchId text mark doc)
    (insertPos pos.toInt32.toInt (m.tree.children pb).length)).apply m.tree = t' at *
  rcases insertVbranch_all_ok takes t' (some v) parentId m.tree.next pos with ⟨o₂, shown⟩
  have found : t'.parent pb = none → ∀ vbr ∈ o₂.vbranchList t'.branch,
      some vbr.view = some v ∨ viewGetVbranch o₂ vbr.view pb ≠ none := by
    intro top vbr member
    rw [parents, if_neg (wf.indexed_lt indexed).ne] at top
    rw [root] at member
    rcases meets with low | ⟨_, others⟩
    · have isRoot := (anc_iff_of_root top).mp (wf.reachable_iff.mp low)
      refine .inr fun hidden => ?_
      rw [← isRoot, viewGetVbranch, List.find?_eq_none] at hidden
      exact hidden vbr member (by simp)
    · rw [insertExpand_top top, Except.ok.injEq] at expanded
      rw [insertVbranch_all_lists shown (wf.root_lt).ne, ← expanded] at member
      rw [viewGetVbranch, insertVbranch_all_lists shown (wf.indexed_lt indexed).ne, ← expanded]
      exact (others vbr member).imp_left (congrArg some)
  rcases insertCount_all_ok_iff.mpr found with ⟨o₃, counted⟩
  refine ⟨{ m with tree := t', overlay := o₃ }, m.tree.next, ?_⟩
  simp only [insert, unused, known, expanded, ok_bind, grown, shown, counted]
  rfl

/-- An insert that leaves the view that asks consistent was made where its climbs end. -/
theorem InsertStages.meets
    (stages : InsertStages m m' (some v) parentId branchId pos text mark doc pb o₁ o₂)
    (wf : m.tree.WellFormed) (after : Consistent m'.tree m'.overlay v) : InsertMeets m.tree m.overlay v pb := by
  have indexed := stages.indexed
  have old : pb ≠ m.tree.next := (wf.indexed_lt indexed).ne
  have wf' := stages.wellFormed wf
  have root : m'.tree.branch = m.tree.branch := by
    rw [stages.tree]
    exact Edit.apply_branch _ _
  have lists : ∀ b, b ≠ m.tree.next → m'.overlay.vbranchList b = o₁.vbranchList b := by
    intro b other
    rw [(insertCount_all_frame stages.counted).1]
    exact insertVbranch_all_lists stages.shown other
  have below : viewGetVbranch o₁ v pb ≠ none → m.tree.Reachable pb := by
    intro there
    have shows := (after.setFaithful wf').shows wf'
    have indexed' : m'.tree.Indexed pb := by
      rw [stages.tree]
      exact (wf.grow_apply stages.allowed pb).2.2.2.mpr (.inr indexed)
    have stands : stand m'.tree m'.overlay v pb ≠ none := by
      rw [stand_of_indexed indexed', viewGetVbranch, lists pb old]
      exact there
    rcases Option.ne_none_iff_exists'.mp stands with ⟨x, present⟩
    have top := shows.shadow.anc_top wf'.acyclic present
    rw [root, stages.tree] at top
    exact wf.reachable_iff.mpr ((grow_anc wf stages.allowed _).mp top)
  rcases step : m.tree.parent pb with _ | p
  · have same := stages.expanded
    rw [insertExpand_top step, Except.ok.injEq] at same
    have counted := insertCount_all_ok_iff.mp ⟨_, stages.counted⟩
      (by rw [stages.parent wf, if_neg old, step])
    refine .inr ⟨step, fun vbr member => ?_⟩
    rw [root, insertVbranch_all_lists stages.shown wf.root_lt.ne, ← same] at counted
    have ends := counted vbr member
    rw [viewGetVbranch, insertVbranch_all_lists stages.shown old, ← same] at ends
    exact ends.imp_left Option.some.inj
  · refine .inl (below ?_)
    have expanded := stages.expanded
    cases found : viewGetVbranch m.overlay v pb with
    | some x =>
        simp only [insertExpand, found, Except.ok.injEq] at expanded
        rw [← expanded, found]
        simp
    | none =>
        simp only [insertExpand, found] at expanded
        rcases bind_eq_ok.mp expanded with ⟨⟨o, r⟩, climbed, rest⟩
        have there := viewExpandTo_attaches wf (by simp [step]) climbed
        cases r with
        | none =>
            rw [← Except.ok.inj rest]
            exact there
        | some y =>
            rw [← Except.ok.inj rest]
            exact there

/-- The insert is made, and it leaves the view that it is made for consistent. -/
def Map.InsertsConsistently (m : Map) (v : ViewPtr) (parentId branchId : UInt64) (pos : UInt32)
    (text : CString) (mark doc : UInt64) : Prop :=
  ∃ m' nb, insert m (some v) parentId branchId pos text mark doc = .ok (m', some nb) ∧
    Consistent m'.tree m'.overlay v

end Asking

end Treedb
