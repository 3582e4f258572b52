import Treedb.InitView
import Treedb.View.Operations

/-!
# Inserts and views

What an insert does to the views. A view that lists the children of the parent gains one vbranch, at
the place of the new branch in the tree. The view that asks for the insert is treated differently: it
is expanded to a parent that it hides, and it always gets a vbranch for the new branch.
-/

namespace Treedb

open Forest Overlay Outcome Treedb.Tree

/--
The view has at most one vbranch for each branch, and under each vbranch none or all of the children
of its branch are listed, in the order of the tree.
-/
structure Overlay.OrderedMirror (t : Tree) (o : Overlay) (v : ViewPtr) : Prop where
  alone : ∀ {b}, t.Indexed b → (o.mine v b).length ≤ 1
  branch_eq : ∀ {b vb}, StandsFor t o v b vb → (o.vmem vb).branch = b
  allocated : ∀ {b vb}, StandsFor t o v b vb → vb.cell < o.vnext
  lists : ∀ {b vb}, StandsFor t o v b vb → o.vchildren vb = [] ∨
    (o.vchildren vb).map some = (t.children b).map (viewGetVbranch o v)

/-- The view `v` gains the vbranch `x` for the branch `nb`, the entry `i` below `pvb`, and no more. -/
structure Overlay.Gains (v : ViewPtr) (id : UInt64) (nb : BranchPtr) (pvb : VbranchPtr) (i : ℕ)
    (x : VbranchPtr) (o o' : Overlay) : Prop where
  own : pvb.view = v ∧ x.view = v
  cell : o.vnext ≤ x.cell ∧ x.cell < o'.vnext
  new : o'.vmem x = { branch := nb, parent := some pvb }
  below : o'.vmem pvb = { o.vmem pvb with childList := (o.vchildren pvb).insertIdx i x }
  rest : ∀ y : VbranchPtr, y.view = v → y ≠ x → y ≠ pvb → o'.vmem y = o.vmem y
  view : o'.views v = { o.views v with
    vbranchIndex := Function.update (o.views v).vbranchIndex id (some x) }
  mine : ∀ b, o'.mine v b = if b = nb then o.mine v b ++ [x] else o.mine v b

/-- The view shows the branch, but none of its children. -/
def Overlay.Folded (t : Tree) (o : Overlay) (v : ViewPtr) (b : BranchPtr) : Prop :=
  ∃ vb, StandsFor t o v b vb ∧ o.vchildren vb = [] ∧ t.children b ≠ []

/-! ## One view -/

section One

variable {t t' : Tree} {o o₁ o₂ o' : Overlay} {v w : ViewPtr} {view : Option ViewPtr}
  {pb nb b : BranchPtr} {vb pvb x : VbranchPtr} {id parentId : UInt64} {pos : UInt32} {i : ℕ}
  {list : List VbranchPtr}

theorem Overlay.Keeps.gains (keeps : Keeps v o o₁) (gains : Gains v id nb pvb i x o₁ o₂) :
    Gains v id nb pvb i x o o₂ where
  own := gains.own
  cell := ⟨keeps.vnext.trans gains.cell.1, gains.cell.2⟩
  new := gains.new
  below := by
    rw [gains.below, vchildren, keeps.vmem pvb gains.own.1, vchildren]
  rest := by
    intro y own notNew notBelow
    rw [gains.rest y own notNew notBelow, keeps.vmem y own]
  view := by
    rw [gains.view, keeps.view]
  mine := by
    intro b
    rw [gains.mine, keeps.mine]

theorem Overlay.Gains.keeps (gains : Gains v id nb pvb i x o o₁) (keeps : Keeps v o₁ o₂) :
    Gains v id nb pvb i x o o₂ where
  own := gains.own
  cell := ⟨gains.cell.1, gains.cell.2.trans_le keeps.vnext⟩
  new := by
    rw [keeps.vmem x gains.own.2, gains.new]
  below := by
    rw [keeps.vmem pvb gains.own.1, gains.below]
  rest := by
    intro y own notNew notBelow
    rw [keeps.vmem y own, gains.rest y own notNew notBelow]
  view := by
    rw [keeps.view, gains.view]
  mine := by
    intro b
    rw [keeps.mine, gains.mine]

theorem insertVbranch_skipped (skipped : some pvb.view ≠ view ∧ o.vchildren pvb = []) :
    insertVbranch t view parentId nb pos o pvb = .ok o :=
  if_pos skipped

/-- A round of the loop edits the view of its vbranch. -/
theorem insertVbranch_beside (run : insertVbranch t view parentId nb pos o pvb = .ok o') :
    Beside pvb.view o o' := by
  unfold insertVbranch at run
  split at run
  · rw [← Except.ok.inj run]
    exact Beside.refl _ o
  · rcases bind_eq_ok.mp run with ⟨o₁, linked, run⟩
    have new := (vbranchNew_beside o pvb.view { branch := nb, parent := some pvb }).trans
      (vbranchIndexPut_beside t _ pvb.view ⟨pvb.view, o.vnext⟩)
    have link : Relinks pvb.view _ o₁ :=
      vbranchAdd_relinks (x := ⟨pvb.view, o.vnext⟩) rfl rfl linked
    have first := (new.trans link.beside).trans
      (branchAttachVbranch_beside o₁ nb ⟨pvb.view, o.vnext⟩)
    split at run
    · rw [← Except.ok.inj run]
      exact first.trans (relinks_push _ _ _).beside
    · rw [← Except.ok.inj run]
      exact first

/-- A round of the loop that is not skipped adds one vbranch. -/
theorem insertVbranch_gains (old : pvb.cell < o.vnext) (short : (o.vchildren pvb).length ≤ 65535)
    (goes : ¬(some pvb.view ≠ view ∧ o.vchildren pvb = []))
    (run : insertVbranch t view parentId nb pos o pvb = .ok o') :
    Gains pvb.view (t.mem nb).id nb pvb (insertPos (branchGetPos t nb) (o.vchildren pvb).length)
      ⟨pvb.view, o.vnext⟩ o o' := by
  have other : pvb ≠ ⟨pvb.view, o.vnext⟩ := by
    intro same
    have cells := congrArg VbranchPtr.cell same
    simp only at cells
    omega
  unfold insertVbranch at run
  rw [if_neg (show ¬(some pvb.view ≠ view ∧ (o.vmem pvb).childList = []) from goes)] at run
  rcases bind_eq_ok.mp run with ⟨o₁, linked, run⟩
  have added := vbranchAdd_addVbranch other linked
  have cell : (addVbranch t o pvb.view { branch := nb, parent := some pvb }).1.vchildren pvb =
      o.vchildren pvb := by
    rw [vchildren, addVbranch_vmem, if_neg other, vchildren]
  have place : (addVbranch t o pvb.view { branch := nb, parent := some pvb }).1.linkPos t
      ⟨pvb.view, o.vnext⟩ pvb = insertPos (branchGetPos t nb) (o.vchildren pvb).length := by
    rw [linkPos, addVbranch_vmem, if_pos rfl, cell]
  rw [vbranchAdd_eq (by rw [cell]; exact short), cell, place] at added
  split at added
  · simp at added
  · have result := Except.ok.inj added
    have gains : Gains pvb.view (t.mem nb).id nb pvb
        (insertPos (branchGetPos t nb) (o.vchildren pvb).length) ⟨pvb.view, o.vnext⟩ o
        (branchAttachVbranch o₁ nb ⟨pvb.view, o.vnext⟩) := by
      refine ⟨⟨rfl, rfl⟩, ⟨le_refl _, ?_⟩, ?_, ?_, ?_, ?_, ?_⟩
      · rw [← result, addVbranch_eq]
        exact Nat.lt_succ_self _
      · rw [← result, modify_vmem, if_neg other.symm, modify_vmem, if_pos rfl, addVbranch_vmem,
          if_pos rfl]
      · rw [← result, modify_vmem, if_pos rfl, modify_vmem, if_neg other, addVbranch_vmem,
          if_neg other]
      · intro y own notNew notBelow
        rw [← result, modify_vmem, if_neg notBelow, modify_vmem, if_neg notNew, addVbranch_vmem,
          if_neg notNew]
      · rw [← result, addVbranch_eq]
        simp [Overlay.modify, vbranchIndexPut, vbranchNew]
      · intro b
        rw [← result]
        refine (addVbranch_mine t o pvb.view { branch := nb, parent := some pvb } pvb.view b).trans ?_
        simp
    dsimp only at run
    split at run
    · rw [← Except.ok.inj run]
      exact gains.keeps (keeps_push _ _ _)
    · rw [← Except.ok.inj run]
      exact gains

/-- The views that an insert is not made for are not expanded. -/
theorem insertExpand_keeps (other : some w ≠ view) (run : insertExpand t o view pb pos = .ok o') :
    Keeps w o o' := by
  unfold insertExpand at run
  split at run
  · rw [← Except.ok.inj run]
    exact Keeps.refl w o
  · rename_i v
    have apart : w ≠ v := by
      rintro rfl
      exact other rfl
    split at run
    · rw [← Except.ok.inj run]
      exact Keeps.refl w o
    · rcases bind_eq_ok.mp run with ⟨⟨o₁, r⟩, expanded, run⟩
      have keeps := (viewExpandTo_beside expanded).keeps apart
      split at run
      · rw [← Except.ok.inj run]
        exact keeps
      · rw [← Except.ok.inj run]
        exact keeps.trans (keeps_push _ _ _)

theorem insertCount_keeps (run : list.foldlM (insertCount t view pb) o = .ok o') : Keeps w o o' := by
  apply foldlM_invariant (Keeps w o) _ (Keeps.refl w o) run
  intro o₁ vbr o₂ _ keeps counted
  rcases insertCount_cases counted with rfl | ⟨msg, rfl⟩
  · exact keeps
  · exact keeps.trans (keeps_push _ _ _)

/-- A loop over vbranches without one of the view does not change it. -/
theorem foldlM_keeps {f : Overlay → VbranchPtr → Except Fault Overlay}
    (frame : ∀ o o' vb, f o vb = .ok o' → Beside vb.view o o')
    (none' : ∀ vb ∈ list, vb.view ≠ v) (run : list.foldlM f o = .ok o') : Keeps v o o' := by
  apply foldlM_invariant (Keeps v o) _ (Keeps.refl v o) run
  intro o₁ vb o₂ member keeps step
  exact keeps.trans ((frame o₁ o₂ vb step).keeps (none' vb member).symm)

/-- A loop over vbranches with one of the view changes the view in the round of this vbranch. -/
theorem foldlM_round {f : Overlay → VbranchPtr → Except Fault Overlay}
    (frame : ∀ o o' vb, f o vb = .ok o' → Beside vb.view o o')
    (only : (list.filter fun vb => vb.view = v) = [vb]) (run : list.foldlM f o = .ok o') :
    ∃ o₁ o₂, Keeps v o o₁ ∧ f o₁ vb = .ok o₂ ∧ Keeps v o₂ o' := by
  rcases List.filter_eq_cons_iff.mp only with ⟨before, after, split, early, _, late⟩
  rw [split, List.foldlM_append] at run
  rcases bind_eq_ok.mp run with ⟨o₁, first, run⟩
  rw [List.foldlM_cons] at run
  rcases bind_eq_ok.mp run with ⟨o₂, round, last⟩
  refine ⟨o₁, o₂, foldlM_keeps frame (by simpa using early) first, round, ?_⟩
  exact foldlM_keeps frame (by simpa [List.filter_eq_nil_iff] using late) last

/-! A view under a new branch. -/

theorem Overlay.OrderedMirror.eq_of_standsFor (mirror : OrderedMirror t o v)
    (first : StandsFor t o v b vb) (second : StandsFor t o v b x) : vb = x := by
  have short := mirror.alone first.indexed
  have memberVb := first.mine
  have memberX := second.mine
  rcases mine : o.mine v b with _ | ⟨y, _ | ⟨z, rest⟩⟩
  · simp [mine] at memberVb
  · rw [mine, List.mem_singleton] at memberVb memberX
    rw [memberVb, memberX]
  · simp [mine] at short

/-- What a view that does not show the new branch shows of the tree with it. -/
theorem standsFor_of_grow {new : Branch} (wf : t.WellFormed)
    (allowed : (Edit.grow pb new i).Allowed t) (same : o'.mine v b = o.mine v b)
    (bare : o.mine v t.next = []) (stands : StandsFor ((Edit.grow pb new i).apply t) o' v b vb) :
    StandsFor t o v b vb ∧ b ≠ t.next := by
  have member := stands.mine
  rw [same] at member
  have old : b ≠ t.next := by
    rintro rfl
    simp [bare] at member
  refine ⟨⟨?_, (mem_mine.mp member).1, stands.view⟩, old⟩
  exact (((wf.grow_apply allowed b).2.2.2).mp stands.indexed).resolve_left old

theorem Overlay.OrderedMirror.keeps {new : Branch} (mirror : OrderedMirror t o v) (wf : t.WellFormed)
    (allowed : (Edit.grow pb new i).Allowed t) (bare : o.mine v t.next = [])
    (folded : ∀ pvb, StandsFor t o v pb pvb → o.vchildren pvb = []) (keeps : Keeps v o o') :
    OrderedMirror ((Edit.grow pb new i).apply t) o' v := by
  have facts := wf.grow_apply allowed
  refine ⟨?_, ?_, ?_, ?_⟩
  · intro b indexed
    rw [keeps.mine]
    rcases (facts b).2.2.2.mp indexed with rfl | before
    · simp [bare]
    · exact mirror.alone before
  · intro b vb stands
    rcases standsFor_of_grow wf allowed (keeps.mine b) bare stands with ⟨before, _⟩
    rw [keeps.vmem vb stands.view]
    exact mirror.branch_eq before
  · intro b vb stands
    rcases standsFor_of_grow wf allowed (keeps.mine b) bare stands with ⟨before, _⟩
    exact (mirror.allocated before).trans_le keeps.vnext
  · intro b vb stands
    rcases standsFor_of_grow wf allowed (keeps.mine b) bare stands with ⟨before, _⟩
    have same : o'.vchildren vb = o.vchildren vb := by
      rw [vchildren, keeps.vmem vb stands.view, vchildren]
    rw [same]
    by_cases here : b = pb
    · subst here
      exact .inl (folded vb before)
    · rw [(facts b).2.1 here, List.map_congr_left fun c _ => keeps.viewGetVbranch c]
      exact mirror.lists before

theorem Overlay.OrderedMirror.gains {new : Branch} (mirror : OrderedMirror t o v) (wf : t.WellFormed)
    (allowed : (Edit.grow pb new i).Allowed t) (bare : o.mine v t.next = [])
    (above : StandsFor t o v pb pvb)
    (full : (o.vchildren pvb).map some = (t.children pb).map (viewGetVbranch o v))
    (gains : Gains v id t.next pvb i x o o') :
    OrderedMirror ((Edit.grow pb new i).apply t) o' v := by
  have facts := wf.grow_apply allowed
  have old : ∀ b, b ≠ t.next → o'.mine v b = o.mine v b := by
    intro b other
    rw [gains.mine, if_neg other]
  have new' : o'.mine v t.next = [x] := by
    rw [gains.mine, if_pos rfl, bare]
    rfl
  have cases : ∀ {b vb}, StandsFor ((Edit.grow pb new i).apply t) o' v b vb →
      (b = t.next ∧ vb = x) ∨ StandsFor t o v b vb ∧ b ≠ t.next ∧ vb ≠ x := by
    intro b vb stands
    by_cases here : b = t.next
    · subst here
      have member := stands.mine
      rw [new', List.mem_singleton] at member
      exact .inl ⟨rfl, member⟩
    · rcases standsFor_of_grow wf allowed (old b here) bare stands with ⟨before, other⟩
      refine .inr ⟨before, other, ?_⟩
      rintro rfl
      have early := mirror.allocated before
      have late := gains.cell.1
      omega
  refine ⟨?_, ?_, ?_, ?_⟩
  · intro b indexed
    rcases (facts b).2.2.2.mp indexed with rfl | before
    · simp [new']
    · rw [old b (wf.indexed_lt before).ne]
      exact mirror.alone before
  · intro b vb stands
    rcases cases stands with ⟨rfl, rfl⟩ | ⟨before, _, notNew⟩
    · rw [gains.new]
    · by_cases below : vb = pvb
      · rw [below, gains.below]
        exact mirror.branch_eq (below ▸ before)
      · rw [gains.rest vb stands.view notNew below]
        exact mirror.branch_eq before
  · intro b vb stands
    rcases cases stands with ⟨_, rfl⟩ | ⟨before, _⟩
    · exact gains.cell.2
    · have early := mirror.allocated before
      have late := gains.cell
      omega
  · intro b vb stands
    have found : ∀ c, c ≠ t.next → viewGetVbranch o' v c = viewGetVbranch o v c := by
      intro c other
      rw [viewGetVbranch_eq, viewGetVbranch_eq, old c other]
    have unlisted : ∀ b, ∀ c ∈ t.children b, c ≠ t.next := fun b c member =>
      (wf.parent_lt (wf.mirrors.mem_iff.mp member)).1.ne
    rcases cases stands with ⟨rfl, rfl⟩ | ⟨before, _, notNew⟩
    · left
      rw [vchildren, gains.new]
    · by_cases below : vb = pvb
      · subst below
        have same : b = pb := by
          rw [← mirror.branch_eq before, mirror.branch_eq above]
        subst same
        right
        -- The entry of the view list is put where that of the tree was put.
        rw [vchildren, gains.below, wf.grow_apply_children allowed, if_pos rfl, List.map_insertIdx,
          List.map_insertIdx, full, List.map_congr_left fun c member => found c (unlisted b c member),
          viewGetVbranch_eq, new']
        rfl
      · have other : b ≠ pb := by
          rintro rfl
          exact below (mirror.eq_of_standsFor before above)
        rw [vchildren, gains.rest vb stands.view notNew below, (facts b).2.1 other,
          List.map_congr_left fun c member => found c (unlisted b c member)]
        exact mirror.lists before

end One

/-! ## All views -/

section All

variable {m m' : Map} {view : Option ViewPtr} {v w : ViewPtr} {parentId branchId : UInt64}
  {pos : UInt32} {text : CString} {mark doc : UInt64} {pb nb : BranchPtr} {o₁ o₂ : Overlay}

namespace InsertStages

variable (stages : InsertStages m m' view parentId branchId pos text mark doc pb o₁ o₂)

include stages

theorem indexed : m.tree.Indexed pb :=
  ⟨parentId, stages.known⟩

theorem wellFormed (wf : m.tree.WellFormed) : m'.tree.WellFormed := by
  rw [stages.tree]
  exact wf.apply stages.allowed

theorem parent (wf : m.tree.WellFormed) (c : BranchPtr) :
    m'.tree.parent c = if c = m.tree.next then some pb else m.tree.parent c := by
  rw [stages.tree]
  exact (wf.grow_apply stages.allowed c).1

theorem parent_next (wf : m.tree.WellFormed) : m'.tree.parent m.tree.next = some pb := by
  rw [stages.parent wf, if_pos rfl]

theorem id_next : (m'.tree.mem m.tree.next).id = branchId := by
  rw [stages.tree, Edit.grow_apply_mem, grow_id, if_pos rfl]
  rfl

theorem idxOf_next (wf : m.tree.WellFormed) : (m'.tree.children pb).idxOf m.tree.next =
    insertPos pos.toInt32.toInt (m.tree.children pb).length := by
  rw [stages.tree, wf.grow_apply_children stages.allowed, if_pos rfl]
  apply idxOf_insertIdx_self (wf.mirrors.nodup pb) _ (insertPos_le _ _)
  intro member
  exact Nat.lt_irrefl _ (wf.parent_lt (wf.mirrors.mem_iff.mp member)).1

/-- After the expansion a view is changed at most in the round of its own vbranch. -/
theorem round (alone : (o₁.mine v pb).length ≤ 1) :
    o₁.mine v pb = [] ∧ Keeps v o₁ m'.overlay ∨
      ∃ pvb o₃ o₄, o₁.mine v pb = [pvb] ∧ pvb.view = v ∧ Keeps v o₁ o₃ ∧
        insertVbranch m'.tree view parentId m.tree.next pos o₃ pvb = .ok o₄ ∧
        Keeps v o₄ m'.overlay := by
  have counted : Keeps v o₂ m'.overlay := insertCount_keeps stages.counted
  have frame : ∀ o o' pvb, insertVbranch m'.tree view parentId m.tree.next pos o pvb = .ok o' →
      Beside pvb.view o o' := fun _ _ _ => insertVbranch_beside
  rcases mine : o₁.mine v pb with _ | ⟨pvb, _ | ⟨y, rest⟩⟩
  · refine .inl ⟨rfl, ?_⟩
    exact (foldlM_keeps frame (by simpa [Overlay.mine] using mine) stages.shown).trans counted
  · have member : pvb ∈ o₁.mine v pb := by simp [mine]
    rcases foldlM_round frame mine stages.shown with ⟨o₃, o₄, before, round, after⟩
    exact .inr ⟨pvb, o₃, o₄, rfl, (mem_mine.mp member).2, before, round, after.trans counted⟩
  · simp [mine] at alone

/-- After the expansion a view is left alone, or gains one vbranch. -/
theorem rounds (wf : m.tree.WellFormed) (alone : (o₁.mine v pb).length ≤ 1)
    (own : ∀ pvb ∈ o₁.mine v pb, pvb.cell < o₁.vnext ∧ (o₁.vchildren pvb).length ≤ 65535) :
    (∀ pvb ∈ o₁.mine v pb, some v ≠ view ∧ o₁.vchildren pvb = []) ∧ Keeps v o₁ m'.overlay ∨
      ∃ pvb x, pvb ∈ o₁.mine v pb ∧ ¬(some v ≠ view ∧ o₁.vchildren pvb = []) ∧
        Gains v branchId m.tree.next pvb
          (insertPos ((m'.tree.children pb).idxOf m.tree.next) (o₁.vchildren pvb).length) x o₁
          m'.overlay := by
  rcases stages.round alone with ⟨none', keeps⟩ | ⟨pvb, o₃, o₄, mine, rfl, before, round, after⟩
  · exact .inl ⟨by simp [none'], keeps⟩
  · have list : o₃.vchildren pvb = o₁.vchildren pvb := by
      rw [vchildren, before.vmem pvb rfl, vchildren]
    by_cases skipped : some pvb.view ≠ view ∧ o₁.vchildren pvb = []
    · refine .inl ⟨by simpa [mine] using skipped, ?_⟩
      rw [insertVbranch_skipped (by rw [list]; exact skipped), Except.ok.injEq] at round
      subst round
      exact before.trans after
    · rcases own pvb (by simp [mine]) with ⟨early, short⟩
      have gains := insertVbranch_gains (early.trans_le before.vnext) (by rw [list]; exact short)
        (by rw [list]; exact skipped) round
      rw [list, (stages.wellFormed wf).branchGetPos_eq (stages.parent_next wf), stages.id_next]
        at gains
      exact .inr ⟨pvb, _, by simp [mine], skipped, before.gains (gains.keeps after)⟩

/-- A consistent view stays so, unless it is made to show the branch and not the siblings. -/
theorem consistent (wf : m.tree.WellFormed) (consistent : Consistent m.tree o₁ v)
    (bare : o₁.mine v m.tree.next = []) (unfolded : some v = view → ¬Folded m.tree o₁ v pb) :
    Consistent m'.tree m'.overlay v := by
  rcases (consistent_iff wf).mp consistent with ⟨shows, whole⟩
  have wf' := stages.wellFormed wf
  have grown : Shows .ordered m'.tree o₁ v {m'.tree.branch} := by
    rw [stages.tree, Edit.apply_branch]
    exact shows.grow wf stages.allowed bare
  have same : ∀ b, stand m'.tree o₁ v b = stand m.tree o₁ v b := by
    rw [stages.tree]
    exact stand_grow wf stages.allowed bare
  have hidden : stand m'.tree o₁ v m.tree.next = none := by
    rw [same, stand, if_neg]
    exact fun known => Nat.lt_irrefl _ (wf.indexed_lt known)
  -- If nothing changes for the view, then no child of the parent is shown.
  have skipped : (∀ c, m.tree.parent c = some pb → stand m.tree o₁ v c = none) →
      Keeps v o₁ m'.overlay → Consistent m'.tree m'.overlay v := by
    intro none' keeps
    refine (consistent_iff wf').mpr ⟨grown.keeps keeps, ?_⟩
    have stands := keeps.stand m'.tree
    refine whole.place (stages.parent wf) ?_ ?_
    · intro b _
      rw [stands, same]
    · intro c _ child
      rw [stands, hidden, none' c child]
  rcases stages.round (shows.alone stages.indexed) with
    ⟨none', keeps⟩ | ⟨pvb, o₃, o₄, mine, rfl, before, round, after⟩
  · have absent : stand m.tree o₁ v pb = none := by
      rw [stand_of_indexed stages.indexed, viewGetVbranch_eq, none']
      rfl
    exact skipped (fun c child => shows.hidden_child wf absent child) keeps
  · have present : stand m.tree o₁ pvb.view pb = some pvb :=
      stand_eq_some.mpr ⟨stages.indexed, by simp [mine]⟩
    have list : o₃.vchildren pvb = o₁.vchildren pvb := by
      rw [vchildren, before.vmem pvb rfl, vchildren]
    have step := stages.parent_next wf
    have stands₃ := before.stand m'.tree
    have siblings : o₃.SiblingsWhole m'.tree pvb.view m.tree.next pb := by
      have known : ∀ c, m'.tree.parent c = some pb → c ≠ m.tree.next →
          m.tree.parent c = some pb := by
        intro c child old
        rw [stages.parent wf, if_neg old] at child
        exact child
      rw [SiblingsWhole, stands₃]
      simp only [same]
      by_cases shown : ∃ d, m.tree.parent d = some pb ∧ stand m.tree o₁ pvb.view d ≠ none
      · rcases shown with ⟨d, childD, there⟩
        exact .inr fun c child old => whole pb d c childD (known c child old) there
      · left
        intro c child old
        by_contra there
        exact shown ⟨c, known c child old, there⟩
    rcases (grown.keeps before).insertVbranch wf' step (by rw [stands₃, same, present])
      (by rw [stands₃, hidden]) (fun _ => siblings) round with
      ⟨shows₄, _, ⟨skip, rfl⟩ | ⟨goes, stands₄, _⟩⟩
    · rw [list] at skip
      exact skipped (fun c child => shows.hidden_of_folded wf present skip.2 child)
        (before.trans after)
    · rw [list] at goes
      have shown : ∀ c, m.tree.parent c = some pb → stand m.tree o₁ pvb.view c ≠ none := by
        intro c child
        have member := wf.mirrors.mem_iff.mpr child
        by_cases folded : o₁.vchildren pvb = []
        · have asks : some pvb.view = view := by
            by_contra other
            exact goes ⟨other, folded⟩
          refine absurd ⟨pvb, standsFor_of_stand present, folded, ?_⟩ (unfolded asks)
          exact List.ne_nil_of_mem member
        · rcases List.exists_mem_of_ne_nil _ folded with ⟨y, listed⟩
          exact shows.shown_of_mem whole wf present listed c member
      refine (consistent_iff wf').mpr ⟨shows₄.keeps after, ?_⟩
      have stands : stand m'.tree m'.overlay pvb.view = Function.update
          (stand m.tree o₁ pvb.view) m.tree.next (some ⟨pvb.view, o₃.vnext⟩) := by
        rw [after.stand, stands₄, stands₃]
        congr 1
        exact funext same
      refine whole.place (stages.parent wf) ?_ ?_
      · intro b old
        rw [stands, Function.update_of_ne old]
      · intro c _ child
        simp [stands, shown c child]

end InsertStages

theorem Overlay.Consistent.mirror {t : Tree} {o : Overlay} (consistent : Consistent t o v) :
    OrderedMirror t o v where
  alone := consistent.alone
  branch_eq := consistent.branch_eq
  allocated := consistent.allocated
  lists := fun stands => (consistent.lists stands).imp_right And.left

/-- A tree and views that are pictures of what it reaches. -/
structure Map.Pictured (m : Map) : Prop where
  wf : m.tree.WellFormed
  sound : Sound .ordered m.tree m.overlay
  registered : ∀ {k w}, viewIndexGet m.overlay k = some w → Consistent m.tree m.overlay w

/-- The same, and every branch of the index is reached. -/
structure Map.Viewed (m : Map) : Prop extends m.Pictured where
  rooted : m.tree.Rooted

theorem Map.Pictured.consistent {m : Map} (pictured : m.Pictured) :
    ∀ vbr ∈ m.overlay.vbranchList m.tree.branch, Consistent m.tree m.overlay vbr.view := by
  intro vbr member
  rcases pictured.sound.attached pictured.wf.root_indexed member with ⟨id, found⟩
  exact pictured.registered found

theorem Map.Pictured.setFaithful {m : Map} (pictured : m.Pictured) :
    ∀ vbr ∈ m.overlay.vbranchList m.tree.branch, SetFaithful m.tree m.overlay vbr.view :=
  fun vbr member => (pictured.consistent vbr member).setFaithful pictured.wf

/-- A view that is not registered shows nothing. -/
theorem Map.Pictured.mirrors {m : Map} (pictured : m.Pictured) (w : ViewPtr) :
    OrderedMirror m.tree m.overlay w := by
  by_cases known : ∃ k, viewIndexGet m.overlay k = some w
  · rcases known with ⟨k, found⟩
    exact (pictured.registered found).mirror
  · have bare : ∀ {b}, m.tree.Indexed b → m.overlay.mine w b = [] := by
      intro b indexed
      rw [List.eq_nil_iff_forall_not_mem]
      intro vb member
      rcases mem_mine.mp member with ⟨attached, own⟩
      exact known (own ▸ pictured.sound.attached indexed attached)
    have none' : ∀ {b vb}, ¬StandsFor m.tree m.overlay w b vb := by
      intro b vb stands
      have member := stands.mine
      simp [bare stands.indexed] at member
    exact ⟨fun indexed => by simp [bare indexed], fun stands => absurd stands none',
      fun stands => absurd stands none', fun stands => absurd stands none'⟩

/-- A view that is made without a request after a run of edits leaves such a state. -/
theorem pictured_of_run {calls : List Call} {m₀ m : Map} {viewId : UInt32} {reqId : UInt64}
    (edits : ∀ call ∈ calls, call.EditsTree) (run : (mapCreateEmpty 1).run calls = .ok m₀)
    (made : mapInitView m₀ viewId reqId 0 [] 0 [] [] = .ok m) :
    m.tree = m₀.tree ∧ m.Pictured := by
  have start := mapCreateEmpty_holdsOnlyRoot 1
  have wf := run_wellFormed start.wellFormed run
  have none' := run_noViews start.wellFormed start.views edits run
  rcases none'.initView wf viewId reqId with ⟨m', v, made', same, index, consistent, sound⟩
  rw [made, Except.ok.injEq] at made'
  subst made'
  refine ⟨same, same ▸ wf, sound, ?_⟩
  intro k w found
  rw [index] at found
  split at found
  · rw [← Option.some.inj found]
    exact consistent
  · simp at found

theorem viewed_of_run {calls : List Call} {m₀ m : Map} {viewId : UInt32} {reqId : UInt64}
    (edits : ∀ call ∈ calls, call.EditsTree)
    (few : (mapCreateEmpty 1).Along (fun m call => call.DeletesFew m.tree) calls)
    (run : (mapCreateEmpty 1).run calls = .ok m₀)
    (made : mapInitView m₀ viewId reqId 0 [] 0 [] [] = .ok m) : m.Viewed := by
  have start := mapCreateEmpty_holdsOnlyRoot 1
  rcases pictured_of_run edits run made with ⟨same, pictured⟩
  exact ⟨pictured, same ▸ run_rooted start.wellFormed start.rooted few run⟩

/-- A root with a child and a grandchild, and a view of the root and the child. -/
theorem viewed_run :
    ∃ m₀ m, (mapCreateEmpty 1).run [.insert 0 1 2 0 [] 0 0, .insert 0 2 3 0 [] 0 0] = .ok m₀ ∧
      mapInitView m₀ 7 0 0 [] 0 [] [] = .ok m ∧ m.Viewed ∧ m.tree.next = 3 ∧
      viewIndexGet m.overlay 7 = some 0 := by
  have observed : ((mapCreateEmpty 1).run [.insert 0 1 2 0 [] 0 0, .insert 0 2 3 0 [] 0 0] >>=
      fun m => mapInitView m 7 0 0 [] 0 [] []).toOption.map
        (fun m => (viewIndexGet m.overlay 7, m.tree.next)) = some (some 0, 3) := by
    decide +kernel
  rcases observed_bind observed with ⟨m₀, m, run, made, first⟩
  rw [Prod.mk.injEq] at first
  have viewed := viewed_of_run (by simp [Call.EditsTree]) (by decide +kernel) run made
  exact ⟨m₀, m, run, made, viewed, first.2, first.1⟩

/--
An accepted insert leaves every view an ordered mirror that it is not made for. Such a view gains one
vbranch, at the place of the new branch, if it lists the children of the parent, and is otherwise as
before.
-/
theorem insert_mirrors (wf : m.tree.WellFormed)
    (fresh : ∀ b, m.tree.next ≤ b → m.overlay.vbranchList b = [])
    (mirror : OrderedMirror m.tree m.overlay w) (other : some w ≠ view)
    (run : insert m view parentId branchId pos text mark doc = .ok (m', some nb)) :
    OrderedMirror m'.tree m'.overlay w ∧
      ∃ pb, branchIndexGet m.tree parentId = some pb ∧
        ((∃ pvb x, StandsFor m.tree m.overlay w pb pvb ∧ m.overlay.vchildren pvb ≠ [] ∧
            Gains w branchId nb pvb ((m'.tree.children pb).idxOf nb) x m.overlay m'.overlay) ∨
          (∀ pvb, StandsFor m.tree m.overlay w pb pvb → m.overlay.vchildren pvb = []) ∧
            Keeps w m.overlay m'.overlay) := by
  rcases insert_stages wf run with ⟨_, refused, _⟩ | ⟨done, pb, o₁, o₂, stages⟩
  · simp at refused
  · rw [Option.some.injEq] at done
    subst done
    have indexed := stages.indexed
    have bare : m.overlay.mine w m.tree.next = [] := mine_eq_nil (fresh _ (le_refl _))
    have expanded := insertExpand_keeps other stages.expanded
    have own : ∀ pvb ∈ o₁.mine w pb, StandsFor m.tree m.overlay w pb pvb ∧
        o₁.vchildren pvb = m.overlay.vchildren pvb := by
      intro pvb member
      rw [expanded.mine] at member
      rcases mem_mine.mp member with ⟨attached, ofView⟩
      refine ⟨⟨indexed, attached, ofView⟩, ?_⟩
      rw [vchildren, expanded.vmem pvb ofView, vchildren]
    -- A list of vbranches that is not empty is as long as that of the branches.
    have long : ∀ pvb, StandsFor m.tree m.overlay w pb pvb → m.overlay.vchildren pvb ≠ [] →
        (m.overlay.vchildren pvb).map some =
          (m.tree.children pb).map (viewGetVbranch m.overlay w) ∧
        (m.overlay.vchildren pvb).length = (m.tree.children pb).length := by
      intro pvb stands unfolded
      have full := (mirror.lists stands).resolve_left unfolded
      refine ⟨full, ?_⟩
      simpa using congrArg List.length full
    have short : ∀ pvb ∈ o₁.mine w pb,
        pvb.cell < o₁.vnext ∧ (o₁.vchildren pvb).length ≤ 65535 := by
      intro pvb member
      rcases own pvb member with ⟨stands, same⟩
      refine ⟨(mirror.allocated stands).trans_le expanded.vnext, ?_⟩
      rw [same]
      by_cases folded : m.overlay.vchildren pvb = []
      · simp [folded]
      · rw [(long pvb stands folded).2]
        exact wf.children_length_le pb
    have alone : (o₁.mine w pb).length ≤ 1 := by
      rw [expanded.mine]
      exact mirror.alone indexed
    rcases stages.rounds wf alone short with ⟨skipped, keeps⟩ | ⟨pvb, x, member, goes, gains⟩
    · have folded : ∀ pvb, StandsFor m.tree m.overlay w pb pvb → m.overlay.vchildren pvb = [] := by
        intro pvb stands
        have member := stands.mine
        rw [← expanded.mine] at member
        rw [← (own pvb member).2]
        exact (skipped pvb member).2
      refine ⟨?_, pb, stages.known, .inr ⟨folded, expanded.trans keeps⟩⟩
      rw [stages.tree]
      exact mirror.keeps wf stages.allowed bare folded (expanded.trans keeps)
    · rcases own pvb member with ⟨stands, same⟩
      rw [same] at goes gains
      have unfolded : m.overlay.vchildren pvb ≠ [] := fun folded => goes ⟨other, folded⟩
      rcases long pvb stands unfolded with ⟨full, length⟩
      have place : insertPos ((m'.tree.children pb).idxOf m.tree.next)
          (m.overlay.vchildren pvb).length = (m'.tree.children pb).idxOf m.tree.next := by
        have inside := insertPos_le pos.toInt32.toInt (m.tree.children pb).length
        rw [← stages.idxOf_next wf, ← length] at inside
        unfold insertPos
        split <;> omega
      rw [place] at gains
      have gained := expanded.gains gains
      refine ⟨?_, pb, stages.known, .inl ⟨pvb, x, stands, unfolded, gained⟩⟩
      rw [stages.idxOf_next wf] at gained
      rw [stages.tree]
      exact mirror.gains wf stages.allowed bare stands full gained

/-- A branch is inserted below the root, next to a child that the view shows. -/
theorem insert_mirrors_example :
    ∃ m m' nb pb pvb x, insert m none 1 4 0 [] 0 0 = .ok (m', some nb) ∧
      OrderedMirror m'.tree m'.overlay 0 ∧
      Gains 0 4 nb pvb ((m'.tree.children pb).idxOf nb) x m.overlay m'.overlay := by
  rcases viewed_run with ⟨m₀, m, run, made, ⟨⟨wf, sound, registered⟩, _⟩, next, first⟩
  have observed : ((mapCreateEmpty 1).run [.insert 0 1 2 0 [] 0 0, .insert 0 2 3 0 [] 0 0] >>=
      fun m => mapInitView m 7 0 0 [] 0 [] []).toOption.map (fun m =>
        (insert m none 1 4 0 [] 0 0).toOption.map fun s => (s.2, s.1.overlay.mine 0 3)) =
      some (some (some 3, [⟨0, 2⟩])) := by
    decide +kernel
  rw [run, ok_bind, made] at observed
  cases inserted : insert m none 1 4 0 [] 0 0 with
  | error e => simp [inserted, Except.toOption] at observed
  | ok s =>
      simp only [inserted, Except.toOption, Option.map_some, Option.some.injEq,
        Prod.mk.injEq] at observed
      rcases s with ⟨m', r⟩
      rcases observed with ⟨rfl, shown⟩
      rcases insert_mirrors wf sound.fresh (registered first).mirror (by simp) inserted with
        ⟨mirror, pb, _, ⟨pvb, x, _, _, gains⟩ | ⟨_, keeps⟩⟩
      · exact ⟨m, m', 3, pb, pvb, x, inserted, mirror, gains⟩
      · rw [keeps.mine, mine_eq_nil (sound.fresh 3 next.le)] at shown
        simp at shown

end All

end Treedb
