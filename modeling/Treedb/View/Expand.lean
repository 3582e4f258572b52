import Treedb.Outcome
import Treedb.View.Shown

/-!
# Expanding a view

`view_expand_to` climbs from a branch to the first ancestor that the view shows, makes vbranches for
all siblings on every level, and links each level below the next one. The levels that are made but
not linked yet are tops. The old list of the vbranch at which the climb ends is overwritten, so
nothing may be in it: no branch on the climb that is hidden has a shown sibling (`Clear`).
-/

namespace Treedb

open Forest Overlay

section Fill

variable {want : Demands} {t : Tree} {o o' o'' : Overlay} {v : ViewPtr} {tops : Set BranchPtr}
  {above : Option VbranchPtr} {bs bs' : List BranchPtr} {a b c : BranchPtr} {x y : VbranchPtr}

/-- Keep the vbranch that stands for `b`, or make one, and put it at the end of the list. -/
def fill (t : Tree) (v : ViewPtr) (above : Option VbranchPtr) (s : Overlay × List VbranchPtr)
    (b : BranchPtr) : Overlay × List VbranchPtr :=
  match viewGetVbranch s.1 v b with
  | some existing => (s.1, s.2 ++ [existing])
  | none =>
      let new := addVbranch t s.1 v { branch := b, parent := above }
      (new.1, s.2 ++ [new.2])

/-- The branches `bs` are shown in addition, by new vbranches below `above`. -/
structure Filled (t : Tree) (v : ViewPtr) (above : Option VbranchPtr) (o o' : Overlay)
    (bs : List BranchPtr) : Prop where
  within : Within t v o o'
  kept : ∀ {c y}, stand t o v c = some y → stand t o' v c = some y
  same : ∀ {c}, c ∉ bs → stand t o' v c = stand t o v c
  there : ∀ {c}, c ∈ bs → stand t o' v c ≠ none
  old : ∀ {x : VbranchPtr}, x.cell < o.vnext → o'.vmem x = o.vmem x
  new : ∀ {c y}, stand t o v c = none → stand t o' v c = some y →
    o'.vmem y = { branch := c, parent := above } ∧ o.vnext ≤ y.cell
  listed : ∀ {c y}, stand t o v c = none → stand t o' v c = some y →
    vbranchIndexGet o' v (t.mem c).id = some y
  index : ∀ {c y}, stand t o v c = some y →
    vbranchIndexGet o' v (t.mem c).id = vbranchIndexGet o v (t.mem c).id
  outQ : o'.outQ = o.outQ

theorem Filled.nil (t : Tree) (v : ViewPtr) (above : Option VbranchPtr) (o : Overlay) :
    Filled t v above o o [] where
  within := Within.refl t v o
  kept := id
  same := fun _ => rfl
  there := fun member => absurd member List.not_mem_nil
  old := fun _ => rfl
  new := fun absent present => by simp [absent] at present
  listed := fun absent present => by simp [absent] at present
  index := fun _ => rfl
  outQ := rfl

/-- A run of the loop shows its branches. -/
theorem Filled.shown_iff (filled : Filled t v above o o' bs) (c : BranchPtr) :
    stand t o' v c ≠ none ↔ stand t o v c ≠ none ∨ c ∈ bs := by
  by_cases member : c ∈ bs
  · simp [member, filled.there member]
  · simp [member, filled.same member]

theorem Filled.trans (first : Filled t v above o o' bs) (second : Filled t v above o' o'' bs')
    (cells : ∀ {c y}, stand t o' v c = some y → y.cell < o'.vnext) :
    Filled t v above o o'' (bs ++ bs') where
  within := first.within.trans second.within
  kept := fun present => second.kept (first.kept present)
  same := by
    intro c out
    rw [List.mem_append, not_or] at out
    rw [second.same out.2, first.same out.1]
  there := by
    intro c member
    rcases List.mem_append.mp member with inFirst | inSecond
    · rcases Option.ne_none_iff_exists'.mp (first.there inFirst) with ⟨y, present⟩
      rw [second.kept present]
      simp
    · exact second.there inSecond
  old := by
    intro x small
    rw [second.old (small.trans_le first.within.vnext), first.old small]
  new := by
    intro c y absent present
    cases middle : stand t o' v c with
    | none =>
        rcases second.new middle present with ⟨made, late⟩
        exact ⟨made, first.within.vnext.trans late⟩
    | some z =>
        rw [second.kept middle, Option.some.injEq] at present
        subst present
        rcases first.new absent middle with ⟨made, late⟩
        rw [second.old (cells middle)]
        exact ⟨made, late⟩
  listed := by
    intro c y absent present
    cases middle : stand t o' v c with
    | none => exact second.listed middle present
    | some z =>
        rw [second.kept middle, Option.some.injEq] at present
        subst present
        rw [second.index middle]
        exact first.listed absent middle
  index := fun present => (second.index (first.kept present)).trans (first.index present)
  outQ := second.outQ.trans first.outQ

/-- One round: the branch is shown afterwards, and is a top if it was not shown before. -/
theorem Shows.fill_one (shows : Shows want t o v tops) (wf : t.WellFormed) (indexed : t.Indexed b)
    (above : Option VbranchPtr) (list : List VbranchPtr) :
    ∃ o' y, fill t v above (o, list) b = (o', list ++ [y]) ∧ stand t o' v b = some y ∧
      Filled t v above o o' [b] ∧
      Shows want t o' v (tops ∪ { c | c ∈ [b] ∧ stand t o v c = none }) := by
  cases present : stand t o v b with
  | some y =>
      refine ⟨o, y, ?_, present, ?_, ?_⟩
      · rw [stand_of_indexed indexed] at present
        simp only [fill, present]
      · refine ⟨Within.refl t v o, id, fun _ => rfl, ?_, fun _ => rfl, ?_, ?_, fun _ => rfl, rfl⟩
        · intro c member
          rw [List.mem_singleton] at member
          rw [member, present]
          simp
        · intro c z absent there
          simp [absent] at there
        · intro c z absent there
          simp [absent] at there
      · have none_new : { c | c ∈ [b] ∧ stand t o v c = none } = ∅ := by
          apply Set.eq_empty_iff_forall_notMem.mpr
          rintro c ⟨member, absent⟩
          rw [List.mem_singleton] at member
          rw [member, present] at absent
          simp at absent
        rw [none_new, Set.union_empty]
        exact shows
  | none =>
      rcases shows.add wf { branch := b, parent := above } indexed present rfl with
        ⟨stands, after⟩
      refine ⟨(addVbranch t o v { branch := b, parent := above }).1, ⟨v, o.vnext⟩, ?_, ?_, ?_, ?_⟩
      · rw [stand_of_indexed indexed] at present
        simp only [fill, present]
        rfl
      · rw [stands, Function.update_self]
      · refine ⟨addVbranch_within o v _ indexed, ?_, ?_, ?_, ?_, ?_, ?_, ?_, ?_⟩
        · intro c y there
          rw [stands, Function.update_of_ne, there]
          rintro rfl
          simp [present] at there
        · intro c out
          rw [List.mem_singleton] at out
          rw [stands, Function.update_of_ne out]
        · intro c member
          rw [List.mem_singleton] at member
          rw [stands, member, Function.update_self]
          simp
        · intro x small
          rw [addVbranch_vmem, if_neg]
          rintro rfl
          exact Nat.lt_irrefl _ small
        · intro c y absent there
          rw [stands, Function.update_apply] at there
          split at there
          · rename_i here
            rw [← Option.some.inj there, addVbranch_vmem, if_pos rfl, here]
            exact ⟨rfl, le_refl _⟩
          · simp [absent] at there
        · intro c y absent there
          rw [stands, Function.update_apply] at there
          split at there
          · rename_i here
            rw [addVbranch_index, here, if_pos rfl, there]
          · simp [absent] at there
        · intro c y there
          rw [addVbranch_index, if_neg]
          intro sameId
          rw [wf.id_injective (stand_eq_some.mp there).1 indexed sameId, present] at there
          simp at there
        · rfl
      · have one_new : { c | c ∈ [b] ∧ stand t o v c = none } = {b} := by
          ext c
          simp only [List.mem_singleton, Set.mem_ofPred_eq, Set.mem_singleton_iff,
            and_iff_left_iff_imp]
          rintro rfl
          exact present
        rw [one_new, Set.union_singleton]
        exact after

/-- A whole list of branches is shown afterwards, in the order of the list. -/
theorem Shows.fill_all (shows : Shows want t o v tops) (wf : t.WellFormed) (bs : List BranchPtr)
    (above : Option VbranchPtr) (list : List VbranchPtr) (indexed : ∀ b ∈ bs, t.Indexed b) :
    ∃ o', bs.foldl (fill t v above) (o, list) = (o', list ++ bs.filterMap (stand t o' v)) ∧
      Filled t v above o o' bs ∧
      Shows want t o' v (tops ∪ { c | c ∈ bs ∧ stand t o v c = none }) := by
  induction bs generalizing o list tops with
  | nil =>
      refine ⟨o, by simp, Filled.nil t v above o, ?_⟩
      simpa using shows
  | cons b bs ih =>
      rcases shows.fill_one wf (indexed b List.mem_cons_self) above list with
        ⟨o₁, y, first, present, filled, middle⟩
      rcases ih middle (list ++ [y]) fun c member => indexed c (List.mem_cons_of_mem _ member) with
        ⟨o', rest, filled', after⟩
      refine ⟨o', ?_, filled.trans filled' middle.cell_lt, ?_⟩
      · rw [List.foldl_cons, first, rest, List.filterMap_cons_some (filled'.kept present)]
        simp
      · convert after using 1
        ext c
        simp only [List.mem_cons, Set.mem_union, Set.mem_ofPred_eq, List.not_mem_nil, or_false]
        constructor
        · rintro (old | ⟨here | later, absent⟩)
          · exact .inl (.inl old)
          · exact .inl (.inr ⟨here, absent⟩)
          · by_cases here : c = b
            · exact .inl (.inr ⟨here, absent⟩)
            · refine .inr ⟨later, ?_⟩
              rw [filled.same (by simpa using here), absent]
        · rintro ((old | ⟨here, absent⟩) | ⟨later, absent⟩)
          · exact .inl old
          · exact .inr ⟨.inl here, absent⟩
          · refine .inr ⟨.inr later, ?_⟩
            cases before : stand t o v c with
            | none => rfl
            | some z =>
                rw [filled.kept before] at absent
                simp at absent

end Fill

section Unfold

variable {want : Demands} {t : Tree} {o o' o'' : Overlay} {v : ViewPtr} {tops : Set BranchPtr}
  {a b c p : BranchPtr} {x y : VbranchPtr}

/-- The view shows more, and what it showed before by the same vbranches; new ones are not marked. -/
structure Overlay.Enlarges (t : Tree) (v : ViewPtr) (o o' : Overlay) : Prop where
  within : Within t v o o'
  kept : ∀ {c y}, stand t o v c = some y → stand t o' v c = some y
  marks : ∀ {c y}, stand t o' v c = some y →
    (o'.vmem y).visible = (stand t o v c).any fun z => (o.vmem z).visible
  listed : ∀ {c y}, stand t o v c = none → stand t o' v c = some y →
    vbranchIndexGet o' v (t.mem c).id = some y
  index : ∀ {c y}, stand t o v c = some y →
    vbranchIndexGet o' v (t.mem c).id = vbranchIndexGet o v (t.mem c).id
  outQ : o'.outQ = o.outQ

theorem Overlay.Enlarges.refl (t : Tree) (v : ViewPtr) (o : Overlay) : Enlarges t v o o where
  within := Within.refl t v o
  kept := id
  marks := fun present => by simp [present]
  listed := fun absent present => by simp [absent] at present
  index := fun _ => rfl
  outQ := rfl

theorem Overlay.Enlarges.trans (first : Enlarges t v o o') (second : Enlarges t v o' o'') :
    Enlarges t v o o'' where
  within := first.within.trans second.within
  kept := fun present => second.kept (first.kept present)
  marks := by
    intro c y present
    rw [second.marks present]
    cases middle : stand t o' v c with
    | none =>
        cases before : stand t o v c with
        | none => rfl
        | some z =>
            rw [first.kept before] at middle
            simp at middle
    | some z => exact first.marks middle
  listed := by
    intro c y absent present
    cases middle : stand t o' v c with
    | none => exact second.listed middle present
    | some z =>
        rw [second.kept middle, Option.some.injEq] at present
        subst present
        rw [second.index middle]
        exact first.listed absent middle
  index := fun present => (second.index (first.kept present)).trans (first.index present)
  outQ := second.outQ.trans first.outQ

/-- A change of links that leaves the marks alone. -/
theorem Overlay.Relinks.enlarges (relinks : Relinks v o o')
    (marks : ∀ y, (o'.vmem y).visible = (o.vmem y).visible) (outQ : o'.outQ = o.outQ) :
    Enlarges t v o o' where
  within := relinks.within t
  kept := by
    intro c y present
    rw [relinks.stand t v]
    exact present
  marks := by
    intro c y present
    rw [relinks.stand t v] at present
    simp [present, marks]
  listed := by
    intro c y absent present
    rw [relinks.stand t v, absent] at present
    simp at present
  index := by
    intro c y _
    rw [vbranchIndexGet, relinks.views, vbranchIndexGet]
  outQ := outQ

theorem Filled.enlarges {above : Option VbranchPtr} {bs : List BranchPtr}
    (filled : Filled t v above o o' bs) (shows : Shows want t o v tops) : Enlarges t v o o' where
  within := filled.within
  kept := filled.kept
  marks := by
    intro c y present
    cases before : stand t o v c with
    | none => rw [(filled.new before present).1]; rfl
    | some z =>
        rw [filled.kept before, Option.some.injEq] at present
        rw [← present, filled.old (shows.cell_lt before)]
        rfl
  listed := filled.listed
  index := filled.index
  outQ := filled.outQ

theorem Overlay.Enlarges.absent (enlarges : Enlarges t v o o') (absent : stand t o' v c = none) :
    stand t o v c = none := by
  cases before : stand t o v c with
  | none => rfl
  | some y =>
      rw [enlarges.kept before] at absent
      simp at absent

/-- The vbranches of the shown children of a branch, in the order of the branch. -/
theorem mem_shownChildren (wf : t.WellFormed) :
    y ∈ (t.children a).filterMap (stand t o v) ↔
      ∃ c, t.parent c = some a ∧ stand t o v c = some y := by
  rw [List.mem_filterMap]
  apply exists_congr
  intro c
  rw [wf.mirrors.mem_iff]

theorem Shows.nodup_shownChildren (shows : Shows want t o v tops) (wf : t.WellFormed)
    (a : BranchPtr) : ((t.children a).filterMap (stand t o v)).Nodup := by
  apply List.Nodup.filterMap _ (wf.mirrors.nodup a)
  intro b c y first second
  exact shows.shadow.inj first second

/-- New vbranches below `x` for all hidden children of its branch `a`. -/
def unfoldAt (t : Tree) (o : Overlay) (v : ViewPtr) (a : BranchPtr) (x : VbranchPtr) : Overlay :=
  let s := (t.children a).foldl (fill t v (some x)) (o, [])
  s.1.modify x fun vb => { vb with childList := s.2 }

theorem Shows.unfold (shows : Shows want t o v {t.branch}) (wf : t.WellFormed)
    (present : stand t o v a = some x) :
    Shows want t (unfoldAt t o v a x) v {t.branch} ∧ Enlarges t v o (unfoldAt t o v a x) ∧
      (∀ c, stand t (unfoldAt t o v a x) v c ≠ none ↔
        stand t o v c ≠ none ∨ t.parent c = some a) ∧
      ∀ {c y}, stand t o v c = some y → c ≠ a → (unfoldAt t o v a x).vmem y = o.vmem y := by
  have indexed : ∀ c ∈ t.children a, t.Indexed c :=
    fun c member => wf.indexed_of_parent (wf.mirrors.mem_iff.mp member)
  rcases shows.fill_all wf (t.children a) (some x) [] indexed with ⟨o₁, filling, filled, middle⟩
  have result : unfoldAt t o v a x =
      o₁.modify x fun vb => { vb with childList := (t.children a).filterMap (stand t o₁ v) } := by
    simp [unfoldAt, filling]
  have relinks : Relinks v o₁ (unfoldAt t o v a x) := by
    rw [result]
    exact relinks_modify o₁ (view_of_stand present) rfl
  have stands := relinks.stand t v
  have above : ∀ y, (∃ c, t.parent c = some a ∧ stand t o₁ v c = some y) →
      o₁.vparent y = some x := by
    rintro y ⟨c, step, there⟩
    cases before : stand t o v c with
    | none => simp [vparent, (filled.new before there).1]
    | some z =>
        rw [filled.kept before, Option.some.injEq] at there
        subst there
        have low : c ≠ t.branch := wf.ne_root step
        rcases shows.shadow.up_eq before low with ⟨q, w, step', aboveC, link⟩
        rw [step, Option.some.injEq] at step'
        rw [← step', present] at aboveC
        rw [vparent, filled.old (shows.cell_lt before), Option.some.inj aboveC]
        exact link
  refine ⟨?_, ?_, ?_, ?_⟩
  · apply middle.adopt wf (filled.kept present) (fun y => mem_shownChildren wf)
      (middle.nodup_shownChildren wf a) relinks
    · intro y
      rw [result, vchildren, modify_vmem]
      split <;> rfl
    · intro y
      have same : (unfoldAt t o v a x).vparent y = o₁.vparent y := by
        rw [result, vparent, modify_vmem]
        split <;> rfl
      rw [same]
      split
      · rename_i member
        exact above y ((mem_shownChildren wf).mp member)
      · rfl
    · intro b
      simp only [Set.mem_singleton_iff, Set.mem_union, Set.mem_ofPred_eq]
      constructor
      · rintro rfl
        exact ⟨.inl rfl, by simp [wf.root_parent]⟩
      · rintro ⟨top | ⟨member, _⟩, other⟩
        · exact top
        · exact absurd (wf.mirrors.mem_iff.mp member) other
    · exact fun _ => List.Sublist.refl _
  · apply (filled.enlarges shows).trans
    apply relinks.enlarges
    · intro y
      rw [result, modify_vmem]
      split <;> rfl
    · rw [result]
      rfl
  · intro c
    rw [stands]
    by_cases member : t.parent c = some a
    · simp [member, filled.there (wf.mirrors.mem_iff.mpr member)]
    · rw [filled.same fun inside => member (wf.mirrors.mem_iff.mp inside)]
      simp [member]
  · intro c y there other
    rw [result, modify_vmem, if_neg, filled.old (shows.cell_lt there)]
    rintro rfl
    exact other (shows.shadow.inj there present)

/-! ## Unfolding by `expand` and `view_expand` -/

/-- The search of `expand` among the old children finds what stands for the branch. -/
theorem Shows.expandChild_eq {old : List VbranchPtr} (shows : Shows want t o v tops)
    (own : x.view = v) (indexed : t.Indexed c)
    (standing : ∀ z ∈ old, ∃ d, stand t o v d = some z)
    (complete : ∀ y, stand t o v c = some y → y ∈ old) (list : List VbranchPtr) :
    expandChild t x old (o, list) c = fill t v (some x) (o, list) c := by
  have search : (old.find? fun z => (o.vmem z).branch = c) = viewGetVbranch o v c := by
    rw [← stand_of_indexed indexed]
    cases found : old.find? fun z => decide ((o.vmem z).branch = c) with
    | none =>
        cases present : stand t o v c with
        | none => rfl
        | some y =>
            rw [List.find?_eq_none] at found
            have noMatch := found y (complete y present)
            simp [shows.branch_eq present] at noMatch
    | some z =>
        rcases standing z (List.mem_of_find?_eq_some found) with ⟨d, present⟩
        have named := List.find?_some found
        simp only [decide_eq_true_eq] at named
        rw [shows.branch_eq present] at named
        rw [← named, present]
  cases found : viewGetVbranch o v c with
  | none => simp only [expandChild, fill, search, own, found]
  | some z => simp only [expandChild, fill, search, found]

theorem Shows.foldl_expandChild (shows : Shows want t o v tops) (wf : t.WellFormed)
    (bs : List BranchPtr) (old : List VbranchPtr) (own : x.view = v)
    (indexed : ∀ c ∈ bs, t.Indexed c) (nodup : bs.Nodup)
    (standing : ∀ z ∈ old, ∃ d, stand t o v d = some z)
    (complete : ∀ c ∈ bs, ∀ y, stand t o v c = some y → y ∈ old) (list : List VbranchPtr) :
    bs.foldl (expandChild t x old) (o, list) = bs.foldl (fill t v (some x)) (o, list) := by
  induction bs generalizing o list tops with
  | nil => rfl
  | cons b bs ih =>
      rw [List.nodup_cons] at nodup
      have indexedB := indexed b List.mem_cons_self
      rcases shows.fill_one wf indexedB (some x) list with ⟨o₁, y, first, _, filled, after⟩
      rw [List.foldl_cons, List.foldl_cons,
        shows.expandChild_eq own indexedB standing (complete b List.mem_cons_self), first]
      apply ih after
      · exact fun c member => indexed c (List.mem_cons_of_mem _ member)
      · exact nodup.2
      · intro z member
        rcases standing z member with ⟨d, present⟩
        exact ⟨d, filled.kept present⟩
      · intro c member z present
        rw [filled.same] at present
        · exact complete c (List.mem_cons_of_mem _ member) z present
        · rw [List.mem_singleton]
          rintro rfl
          exact nodup.1 member

theorem Shows.expand_eq (shows : Shows want t o v {t.branch}) (wf : t.WellFormed)
    (present : stand t o v a = some x) : expand t o x = unfoldAt t o v a x := by
  have same := shows.foldl_expandChild wf (t.children a) (o.vchildren x)
    (view_of_stand present)
    (fun c member => wf.indexed_of_parent (wf.mirrors.mem_iff.mp member)) (wf.mirrors.nodup a)
    (fun z member => by
      rcases (shows.shadow.mem_down present).mp member with ⟨d, _, _, there⟩
      exact ⟨d, there⟩)
    (fun c member y there => by
      have step := wf.mirrors.mem_iff.mp member
      refine (shows.shadow.mem_down present).mpr ⟨c, step, ?_, there⟩
      exact wf.ne_root step) []
  simp only [expand, shows.branch_eq present, wf.take_children a, unfoldAt]
  rw [← same]
  rfl

/-- The lists of the branches in `reach` are completed, and nothing else changes. -/
structure Overlay.Unfolds (t : Tree) (v : ViewPtr) (reach : BranchPtr → Prop) (o o' : Overlay) :
    Prop where
  enlarges : Enlarges t v o o'
  shown_iff : ∀ c, stand t o' v c ≠ none ↔
    stand t o v c ≠ none ∨ ∃ e, reach e ∧ t.parent c = some e
  unchanged : ∀ {c y}, stand t o v c = some y → ¬reach c → o'.vmem y = o.vmem y

theorem Overlay.Unfolds.refl (t : Tree) (v : ViewPtr) (o : Overlay) :
    Unfolds t v (fun _ => False) o o :=
  ⟨Enlarges.refl t v o, by simp, fun _ _ => rfl⟩

theorem Overlay.Unfolds.trans {reach reach' : BranchPtr → Prop} (first : Unfolds t v reach o o')
    (second : Unfolds t v reach' o' o'') :
    Unfolds t v (fun e => reach e ∨ reach' e) o o'' where
  enlarges := first.enlarges.trans second.enlarges
  shown_iff := by
    intro c
    rw [second.shown_iff, first.shown_iff, or_assoc, ← exists_or]
    simp only [or_and_right]
  unchanged := by
    intro c y present out
    rw [not_or] at out
    rw [second.unchanged (first.enlarges.kept present) out.2, first.unchanged present out.1]

theorem Overlay.Unfolds.congr {reach reach' : BranchPtr → Prop} (unfolds : Unfolds t v reach o o')
    (same : ∀ e, reach' e ↔ reach e) : Unfolds t v reach' o o' := by
  rw [show reach' = reach from funext fun e => propext (same e)]
  exact unfolds

/-- The branch `e` is `b` or less than `levels` levels below it. -/
def Tree.Near (t : Tree) : ℕ → BranchPtr → BranchPtr → Prop
  | 0, _, _ => False
  | levels + 1, b, e => e = b ∨ ∃ c, t.parent c = some b ∧ t.Near levels c e

/-- One round of `view_expand`: the list of the vbranch is complete afterwards. -/
theorem Shows.unfolds_one (shows : Shows want t o v {t.branch}) (wf : t.WellFormed)
    (present : stand t o v a = some x) :
    ∃ o₁, (if (o.vmem x).childList.length = (t.mem (o.vmem x).branch).childN.toNat then o
        else expand t o x) = o₁ ∧
      Shows want t o₁ v {t.branch} ∧ Unfolds t v (fun e => e = a) o o₁ := by
  refine ⟨_, rfl, ?_⟩
  split
  · rename_i complete
    refine ⟨shows, Enlarges.refl t v o, ?_, fun _ _ => rfl⟩
    have length : ((t.children a).filterMap (stand t o v)).length = (t.children a).length := by
      rw [← (shows.vchildren_perm wf present).length_eq, ← wf.childN_eq, ← shows.branch_eq present]
      exact complete
    intro c
    refine ⟨.inl, ?_⟩
    rintro (there | ⟨e, rfl, child⟩)
    · exact there
    · rw [← Option.isSome_iff_ne_none]
      exact List.filterMap_length_eq_length.mp length c (wf.mirrors.mem_iff.mpr child)
  · rw [shows.expand_eq wf present]
    rcases shows.unfold wf present with ⟨after, enlarges, shown, unchanged⟩
    refine ⟨after, enlarges, ?_, unchanged⟩
    intro c
    rw [shown c]
    simp

/-- A recursion over shown vbranches that unfolds them one after the other. -/
theorem foldl_unfolds {f : Overlay → VbranchPtr → Overlay} {reach : BranchPtr → BranchPtr → Prop}
    {list : List BranchPtr} {stood : BranchPtr → Option VbranchPtr}
    (step : ∀ o c y, Shows want t o v {t.branch} → stand t o v c = some y →
      Shows want t (f o y) v {t.branch} ∧ Unfolds t v (reach c) o (f o y))
    (shows : Shows want t o v {t.branch})
    (kept : ∀ {c y}, stood c = some y → stand t o v c = some y) :
    Shows want t ((list.filterMap stood).foldl f o) v {t.branch} ∧
      Unfolds t v (fun e => ∃ c ∈ list, stood c ≠ none ∧ reach c e) o
        ((list.filterMap stood).foldl f o) := by
  induction list generalizing o with
  | nil => exact ⟨shows, (Unfolds.refl t v o).congr (by simp)⟩
  | cons c list ih =>
      cases there : stood c with
      | none =>
          rw [List.filterMap_cons_none there]
          rcases ih shows kept with ⟨after, unfolds⟩
          refine ⟨after, unfolds.congr fun e => ?_⟩
          simp [there]
      | some y =>
          rw [List.filterMap_cons_some there, List.foldl_cons]
          rcases step o c y shows (kept there) with ⟨middle, first⟩
          rcases ih middle fun present => first.enlarges.kept (kept present) with ⟨after, rest⟩
          refine ⟨after, (first.trans rest).congr fun e => ?_⟩
          simp [there]

/-- The branches that the entries of a list stand for. -/
theorem Shows.branches_of_list (shows : Shows want t o v {t.branch})
    (present : stand t o v a = some x) :
    ((o.vchildren x).map fun y => (o.vmem y).branch).filterMap (stand t o v) = o.vchildren x := by
  have standing : ∀ y ∈ o.vchildren x, stand t o v (o.vmem y).branch = some y := by
    intro y member
    rcases (shows.shadow.mem_down present).mp member with ⟨c, _, _, there⟩
    rw [shows.branch_eq there, there]
  rw [List.filterMap_map]
  exact (List.filterMap_congr standing).trans List.filterMap_some

/-- `view_expand` completes the lists near the vbranch. -/
theorem Shows.expandLoop (shows : Shows want t o v {t.branch}) (wf : t.WellFormed) (levels : ℕ)
    (present : stand t o v a = some x) :
    Shows want t (viewExpandLoop t levels o x) v {t.branch} ∧
      Unfolds t v (t.Near levels a) o (viewExpandLoop t levels o x) := by
  induction levels generalizing o a x with
  | zero => exact ⟨shows, Unfolds.refl t v o⟩
  | succ levels ih =>
      rcases shows.unfolds_one wf present with ⟨o₁, opened, shows₁, unfolds₁⟩
      have present₁ := unfolds₁.enlarges.kept present
      simp only [viewExpandLoop, opened]
      rw [show (o₁.vmem x).childList = o₁.vchildren x from rfl,
        ← shows₁.branches_of_list present₁]
      rcases foldl_unfolds (fun _ _ _ shows there => ih shows there) shows₁ id with
        ⟨after, unfolds⟩
      refine ⟨after, (unfolds₁.trans unfolds).congr fun e => ?_⟩
      rw [Tree.Near]
      apply or_congr_right
      apply exists_congr
      intro c
      have shown : t.parent c = some a → stand t o₁ v c ≠ none :=
        fun child => (unfolds₁.shown_iff c).mpr (.inr ⟨a, rfl, child⟩)
      rw [List.mem_map]
      constructor
      · rintro ⟨child, near⟩
        rcases Option.ne_none_iff_exists'.mp (shown child) with ⟨y, there⟩
        have low : c ≠ t.branch := wf.ne_root child
        refine ⟨⟨y, ?_, shows₁.branch_eq there⟩, shown child, near⟩
        exact (shows₁.shadow.mem_down present₁).mpr ⟨c, child, low, there⟩
      · rintro ⟨⟨y, member, rfl⟩, _, near⟩
        rcases (shows₁.shadow.mem_down present₁).mp member with ⟨d, child, _, there⟩
        rw [shows₁.branch_eq there] at near ⊢
        exact ⟨child, near⟩

end Unfold

/-! ## Siblings -/

section Siblings

variable {want : Demands} {t : Tree} {o o' : Overlay} {v : ViewPtr} {tops : Set BranchPtr}
  {above : Option VbranchPtr} {bs : List BranchPtr} {a b c pb : BranchPtr} {x y : VbranchPtr}
  {list prev : List VbranchPtr}

/-- A new vbranch at the end of the list. -/
def addTo (t : Tree) (v : ViewPtr) (above : Option VbranchPtr) (s : Overlay × List VbranchPtr)
    (b : BranchPtr) : Overlay × List VbranchPtr :=
  let new := addVbranch t s.1 v { branch := b, parent := above }
  (new.1, s.2 ++ [new.2])

/-- For hidden branches there is nothing to keep. -/
theorem Shows.foldl_addTo (shows : Shows want t o v tops) (wf : t.WellFormed)
    (bs : List BranchPtr) (above : Option VbranchPtr) (indexed : ∀ c ∈ bs, t.Indexed c) (nodup : bs.Nodup)
    (hidden : ∀ c ∈ bs, stand t o v c = none) (list : List VbranchPtr) :
    bs.foldl (addTo t v above) (o, list) = bs.foldl (fill t v above) (o, list) := by
  induction bs generalizing o list tops with
  | nil => rfl
  | cons b bs ih =>
      rw [List.nodup_cons] at nodup
      have indexedB := indexed b List.mem_cons_self
      have absent := hidden b List.mem_cons_self
      rw [stand_of_indexed indexedB] at absent
      have same : addTo t v above (o, list) b = fill t v above (o, list) b := by
        simp only [addTo, fill, absent]
      rcases shows.fill_one wf indexedB above list with ⟨o₁, y, first, _, filled, after⟩
      rw [List.foldl_cons, List.foldl_cons, same, first]
      apply ih after
      · exact fun c member => indexed c (List.mem_cons_of_mem _ member)
      · exact nodup.2
      · intro c member
        rw [filled.same]
        · exact hidden c (List.mem_cons_of_mem _ member)
        · rw [List.mem_singleton]
          rintro rfl
          exact nodup.1 member

theorem foldl_expandSibling_none (t : Tree) (v : ViewPtr) (b : BranchPtr) (bs : List BranchPtr)
    (o : Overlay) (list : List VbranchPtr) :
    bs.foldl (expandSibling t v b) (o, none, list) =
      ((bs.foldl (addTo t v none) (o, list)).1, none, (bs.foldl (addTo t v none) (o, list)).2) := by
  induction bs generalizing o list with
  | nil => rfl
  | cons c bs ih =>
      simp only [List.foldl_cons]
      exact ih _ _

theorem foldl_expandSibling_some (t : Tree) (v : ViewPtr) (bs : List BranchPtr) (out : b ∉ bs)
    (o : Overlay) (prev list : List VbranchPtr) :
    bs.foldl (expandSibling t v b) (o, some prev, list) =
      ((bs.foldl (addTo t v none) (o, list)).1, some prev,
        (bs.foldl (addTo t v none) (o, list)).2) := by
  induction bs generalizing o list with
  | nil => rfl
  | cons c bs ih =>
      rw [List.mem_cons, not_or] at out
      have other : c ≠ b := fun same => out.1 same.symm
      simp only [List.foldl_cons, expandSibling, if_neg other]
      exact ih out.2 _ _

theorem setParents_vmem (o : Overlay) (x : VbranchPtr) (list : List VbranchPtr) (y : VbranchPtr) :
    (setParents o x list).vmem y =
      if y ∈ list then { o.vmem y with parent := some x } else o.vmem y := by
  induction list generalizing o with
  | nil => rfl
  | cons z list ih =>
      rw [setParents, List.foldl_cons, ← setParents, ih, modify_vmem]
      by_cases here : y = z
      · simp [here]
      · simp [here]

theorem relinks_setParents (o : Overlay) (x : VbranchPtr) (own : ∀ y ∈ list, y.view = v) :
    Relinks v o (setParents o x list) := by
  induction list generalizing o with
  | nil => exact Relinks.refl v o
  | cons z list ih =>
      have first : Relinks v o (o.modify z fun vb => { vb with parent := some x }) :=
        relinks_modify o (own z List.mem_cons_self) rfl
      exact first.trans (ih _ fun y member => own y (List.mem_cons_of_mem _ member))

theorem setParents_outQ (o : Overlay) (x : VbranchPtr) (list : List VbranchPtr) :
    (setParents o x list).outQ = o.outQ := by
  induction list generalizing o with
  | nil => rfl
  | cons z list ih => exact ih _

/-- A shown vbranch takes over those that stand for the children of its branch. -/
theorem Shows.handOver (shows : Shows want t o v tops) (wf : t.WellFormed)
    (present : stand t o v b = some x)
    (members : ∀ y, y ∈ list ↔ ∃ c, t.parent c = some b ∧ stand t o v c = some y)
    (nodup : list.Nodup)
    (inOrder : want.order → list.Sublist ((t.children b).filterMap (stand t o v)))
    (result : setParents (o.modify x fun vb => { vb with childList := list }) x list = o') :
    Relinks v o o' ∧ Enlarges t v o o' ∧
      Shows want t o' v { c | c ∈ tops ∧ t.parent c ≠ some b } := by
  have own : ∀ y ∈ list, y.view = v := by
    intro y member
    rcases (members y).mp member with ⟨c, _, there⟩
    exact view_of_stand there
  have self : x ∉ list := by
    intro member
    rcases (members x).mp member with ⟨c, child, there⟩
    rw [shows.shadow.inj there present] at child
    exact wf.acyclic.parent_ne child rfl
  have relinks : Relinks v o o' := by
    rw [← result]
    exact (relinks_modify o (view_of_stand present) rfl).trans (relinks_setParents _ x own)
  have cells : ∀ y, o'.vmem y = if y = x then { o.vmem x with childList := list }
      else if y ∈ list then { o.vmem y with parent := some x } else o.vmem y := by
    intro y
    rw [← result, setParents_vmem, modify_vmem]
    by_cases here : y = x
    · rw [if_pos here, if_pos here, here, if_neg self]
    · rw [if_neg here, if_neg here]
  refine ⟨relinks, relinks.enlarges ?_ ?_, ?_⟩
  · intro y
    rw [cells]
    split
    · rename_i here
      rw [here]
    · split <;> rfl
  · rw [← result, setParents_outQ]
    rfl
  · refine shows.adopt wf present members nodup relinks ?_ ?_ (fun _ => Iff.rfl) inOrder
    · intro y
      rw [vchildren, cells, vchildren]
      split
      · rfl
      · split <;> rfl
    · intro y
      rw [vparent, cells, vparent]
      split
      · rename_i here
        rw [here, if_neg self]
      · split <;> rfl

/-- A new vbranch with a list is a new vbranch that is given the list. -/
theorem addVbranch_with (t : Tree) (o : Overlay) (v : ViewPtr) (b : BranchPtr)
    (list : List VbranchPtr) :
    (addVbranch t o v { branch := b, childList := list }).1 =
      (addVbranch t o v { branch := b }).1.modify ⟨v, o.vnext⟩ fun vb =>
        { vb with childList := list } := by
  rw [addVbranch_eq, addVbranch_eq]
  simp [Overlay.modify, vbranchIndexPut, vbranchNew]

/-- The new vbranch for a branch takes over those made for its children on the level below. -/
theorem Shows.add_adopting (shows : Shows want t o v tops) (wf : t.WellFormed)
    (list : List VbranchPtr) (indexed : t.Indexed b) (absent : stand t o v b = none)
    (members : ∀ y, y ∈ list ↔ ∃ c, t.parent c = some b ∧ stand t o v c = some y)
    (nodup : list.Nodup)
    (inOrder : want.order → list.Sublist ((t.children b).filterMap (stand t o v))) :
    ∃ o', setParents (addVbranch t o v { branch := b, childList := list }).1 ⟨v, o.vnext⟩ list = o' ∧
      stand t o' v = Function.update (stand t o v) b (some ⟨v, o.vnext⟩) ∧ Enlarges t v o o' ∧
      Shows want t o' v { c | (c = b ∨ c ∈ tops) ∧ t.parent c ≠ some b } := by
  rcases shows.add wf { branch := b } indexed absent rfl with ⟨stands, after⟩
  have kept : ∀ c y, stand t o v c = some y →
      stand t (addVbranch t o v { branch := b }).1 v c = some y := by
    intro c y there
    rw [stands, Function.update_of_ne, there]
    rintro rfl
    simp [absent] at there
  have added : Enlarges t v o (addVbranch t o v { branch := b }).1 := by
    rcases shows.fill_one wf indexed none [] with ⟨o', y, made, _, filled, _⟩
    rw [stand_of_indexed indexed] at absent
    simp only [fill, absent, Prod.mk.injEq] at made
    rw [made.1]
    exact filled.enlarges shows
  have present : stand t (addVbranch t o v { branch := b }).1 v b = some ⟨v, o.vnext⟩ := by
    rw [stands, Function.update_self]
  have members' : ∀ y, y ∈ list ↔ ∃ c, t.parent c = some b ∧
      stand t (addVbranch t o v { branch := b }).1 v c = some y := by
    intro y
    rw [members, stands]
    apply exists_congr
    intro c
    apply and_congr_right
    intro step
    have other : c ≠ b := fun same => wf.acyclic.parent_ne step same.symm
    rw [Function.update_of_ne other]
  rcases after.handOver wf present members' nodup
    (fun order => (inOrder order).trans (filterMap_sublist_of_kept kept)) rfl with
    ⟨relinks, enlarges, final⟩
  refine ⟨_, rfl, ?_, ?_, ?_⟩
  · rw [addVbranch_with, relinks.stand t v, stands]
  · rw [addVbranch_with]
    exact added.trans enlarges
  · rw [addVbranch_with]
    exact final

/--
The climb has reached `b`. The list `prev` holds the vbranches of all children of `b`, which are not
linked yet.
-/
structure Climbing (want : Demands) (t : Tree) (o : Overlay) (v : ViewPtr) (b : BranchPtr)
    (prev : Option (List VbranchPtr)) : Prop where
  shows : Shows want t o v { c | c = t.branch ∨ prev.isSome ∧ t.parent c = some b }
  built : ∀ {list}, prev = some list → list = (t.children b).filterMap (stand t o v)

theorem filterMap_append_of_kept {f g : BranchPtr → Option VbranchPtr} {bs bs' : List BranchPtr}
    (kept : ∀ c ∈ bs, ∀ y, f c = some y → g c = some y) (there : ∀ c ∈ bs, f c ≠ none) :
    bs.filterMap f ++ bs'.filterMap g = (bs ++ bs').filterMap g := by
  rw [List.filterMap_append]
  apply congrArg (· ++ _)
  apply List.filterMap_congr
  intro c member
  rcases Option.ne_none_iff_exists'.mp (there c member) with ⟨y, present⟩
  rw [present, kept c member y present]

/-- The first round of the climb: all siblings of `b` are shown. -/
theorem Climbing.siblings_first (climbing : Climbing want t o v b none) (wf : t.WellFormed)
    (hidden : ∀ c ∈ t.children pb, stand t o v c = none) :
    ∃ o', (t.children pb).foldl (expandSibling t v b) (o, none, []) =
        (o', none, (t.children pb).filterMap (stand t o' v)) ∧
      Climbing want t o' v pb (some ((t.children pb).filterMap (stand t o' v))) ∧
      Enlarges t v o o' ∧
      ∀ c, stand t o' v c ≠ none ↔ stand t o v c ≠ none ∨ c ∈ t.children pb := by
  have known : ∀ c ∈ t.children pb, t.Indexed c :=
    fun c member => wf.indexed_of_parent (wf.mirrors.mem_iff.mp member)
  rcases climbing.shows.fill_all wf (t.children pb) none [] known with ⟨o', filling, filled, after⟩
  refine ⟨o', ?_, ⟨?_, fun same => (Option.some.inj same).symm⟩, filled.enlarges climbing.shows,
    filled.shown_iff⟩
  · rw [foldl_expandSibling_none,
      climbing.shows.foldl_addTo wf _ none known (wf.mirrors.nodup pb) hidden, filling]
    rfl
  · convert after using 1
    ext c
    simp only [Option.isSome_some, Option.isSome_none, true_and, false_and, or_false,
      Bool.false_eq_true, Set.mem_union, Set.mem_ofPred_eq, ← wf.mirrors.mem_iff]
    apply or_congr_right
    exact ⟨fun child => ⟨child, hidden c child⟩, And.left⟩

/-- A later round: all siblings of `b` are shown, with `b` above the level before. -/
theorem Climbing.siblings_next (climbing : Climbing want t o v b (some list)) (wf : t.WellFormed)
    (step : t.parent b = some pb) (hidden : ∀ c ∈ t.children pb, stand t o v c = none) :
    ∃ o', (t.children pb).foldl (expandSibling t v b) (o, some list, []) =
        (o', none, (t.children pb).filterMap (stand t o' v)) ∧
      Climbing want t o' v pb (some ((t.children pb).filterMap (stand t o' v))) ∧
      Enlarges t v o o' ∧
      ∀ c, stand t o' v c ≠ none ↔ stand t o v c ≠ none ∨ c ∈ t.children pb := by
  have known : ∀ c ∈ t.children pb, t.Indexed c :=
    fun c member => wf.indexed_of_parent (wf.mirrors.mem_iff.mp member)
  have nodup := wf.mirrors.nodup pb
  have member : b ∈ t.children pb := wf.mirrors.mem_iff.mpr step
  have absent := hidden b member
  rcases List.append_of_mem member with ⟨left, right, split⟩
  simp only [split, List.mem_append, List.mem_cons] at known hidden
  rw [split, List.nodup_append] at nodup
  rcases nodup with ⟨nodupLeft, nodupRight, apart⟩
  rw [List.nodup_cons] at nodupRight
  have outLeft : b ∉ left := fun inside => apart b inside b List.mem_cons_self rfl
  have knownLeft : ∀ c ∈ left, t.Indexed c := fun c inside => known c (.inl inside)
  have knownRight : ∀ c ∈ right, t.Indexed c := fun c inside => known c (.inr (.inr inside))
  have hiddenLeft : ∀ c ∈ left, stand t o v c = none := fun c inside => hidden c (.inl inside)
  -- The siblings before `b`.
  rcases climbing.shows.fill_all wf left none [] knownLeft with ⟨o₁, filling₁, filled₁, shows₁⟩
  have below : ∀ c, t.parent c = some b → stand t o₁ v c = stand t o v c := by
    intro c child
    apply filled₁.same
    intro inside
    have child' : t.parent c = some pb :=
      wf.mirrors.mem_iff.mp (by rw [split]; exact List.mem_append_left _ inside)
    rw [child, Option.some.injEq] at child'
    exact wf.acyclic.parent_ne step child'.symm
  have absent₁ : stand t o₁ v b = none := by
    rw [filled₁.same outLeft]
    exact absent
  -- The branch `b` itself, above the list of the level before.
  have members : ∀ y, y ∈ list ↔ ∃ c, t.parent c = some b ∧ stand t o₁ v c = some y := by
    intro y
    rw [climbing.built rfl, mem_shownChildren wf]
    apply exists_congr
    intro c
    apply and_congr_right
    intro child
    rw [below c child]
  have nodupList : list.Nodup := by
    rw [climbing.built rfl]
    exact climbing.shows.nodup_shownChildren wf b
  have inOrder : want.order → list.Sublist ((t.children b).filterMap (stand t o₁ v)) := by
    intro _
    rw [climbing.built rfl]
    exact filterMap_sublist_of_kept fun c y there => filled₁.kept there
  rcases shows₁.add_adopting wf list (known b (.inr (.inl rfl))) absent₁ members nodupList inOrder with
    ⟨o₂, adding, stands₂, enlarges₂, shows₂⟩
  have shown₂ : ∀ c, stand t o₂ v c ≠ none ↔ stand t o₁ v c ≠ none ∨ c = b := by
    intro c
    rw [stands₂, Function.update_apply]
    by_cases here : c = b
    · simp [here]
    · simp [here]
  -- The siblings after `b`.
  have hiddenRight : ∀ c ∈ right, stand t o₂ v c = none := by
    intro c inside
    by_contra there
    rcases (shown₂ c).mp there with before | rfl
    · rcases (filled₁.shown_iff c).mp before with early | twice
      · exact early (hidden c (.inr (.inr inside)))
      · exact apart c twice c (List.mem_cons_of_mem _ inside) rfl
    · exact nodupRight.1 inside
  rcases shows₂.fill_all wf right none (left.filterMap (stand t o₁ v) ++ [⟨v, o₁.vnext⟩]) knownRight
    with ⟨o₃, filling₃, filled₃, shows₃⟩
  have lists : left.filterMap (stand t o₁ v) ++ [⟨v, o₁.vnext⟩] ++ right.filterMap (stand t o₃ v) =
      (t.children pb).filterMap (stand t o₃ v) := by
    have present : stand t o₃ v b = some ⟨v, o₁.vnext⟩ := by
      apply filled₃.kept
      rw [stands₂, Function.update_self]
    rw [split, ← filterMap_append_of_kept (f := stand t o₁ v) (g := stand t o₃ v)
      (fun c _ y there => filled₃.kept (enlarges₂.kept there)) (fun c inside => filled₁.there inside),
      List.filterMap_cons_some present]
    simp
  refine ⟨o₃, ?_, ⟨?_, fun same => (Option.some.inj same).symm⟩, ?_, ?_⟩
  · rw [split, List.foldl_append, foldl_expandSibling_some t v left outLeft,
      climbing.shows.foldl_addTo wf left none knownLeft nodupLeft hiddenLeft, filling₁,
      List.foldl_cons]
    simp only [expandSibling, if_true, List.nil_append]
    rw [show (addVbranch t o₁ v { branch := b, childList := list }).2 = ⟨v, o₁.vnext⟩ from rfl,
      adding, foldl_expandSibling_none,
      shows₂.foldl_addTo wf right none knownRight nodupRight.2 hiddenRight, filling₃, lists, split]
  · convert shows₃ using 1
    ext c
    simp only [Option.isSome_some, true_and, Set.mem_union, Set.mem_ofPred_eq]
    have inside : t.parent c = some pb ↔ c ∈ left ∨ c = b ∨ c ∈ right := by
      rw [← wf.mirrors.mem_iff, split, List.mem_append, List.mem_cons]
    constructor
    · rintro (rfl | child)
      · exact .inl ⟨.inr (.inl (.inl rfl)), by simp [wf.root_parent]⟩
      · have notBelow : t.parent c ≠ some b := by
          rw [child, ne_eq, Option.some.injEq]
          exact wf.acyclic.parent_ne step
        rcases inside.mp child with early | rfl | late
        · exact .inl ⟨.inr (.inr ⟨early, hiddenLeft c early⟩), notBelow⟩
        · exact .inl ⟨.inl rfl, notBelow⟩
        · exact .inr ⟨late, hiddenRight c late⟩
    · rintro (⟨rfl | ((rfl | child) | ⟨early, _⟩), notBelow⟩ | ⟨late, _⟩)
      · exact .inr step
      · exact .inl rfl
      · exact absurd child notBelow
      · exact .inr (inside.mpr (.inl early))
      · exact .inr (inside.mpr (.inr (.inr late)))
  · exact (filled₁.enlarges climbing.shows).trans (enlarges₂.trans (filled₃.enlarges shows₂))
  · intro c
    rw [filled₃.shown_iff, shown₂, filled₁.shown_iff, split, List.mem_append, List.mem_cons, or_assoc,
      or_assoc]

/-- One round of the climb. -/
theorem Climbing.siblings {prev : Option (List VbranchPtr)} (climbing : Climbing want t o v b prev)
    (wf : t.WellFormed) (step : t.parent b = some pb)
    (hidden : ∀ c, t.parent c = some pb → stand t o v c = none) :
    ∃ o' prev', (t.children pb).foldl (expandSibling t v b) (o, prev, []) =
        (o', prev', (t.children pb).filterMap (stand t o' v)) ∧
      Climbing want t o' v pb (some ((t.children pb).filterMap (stand t o' v))) ∧
      Enlarges t v o o' ∧
      ∀ c, stand t o' v c ≠ none ↔ stand t o v c ≠ none ∨ t.parent c = some pb := by
  have absent : ∀ c ∈ t.children pb, stand t o v c = none :=
    fun c member => hidden c (wf.mirrors.mem_iff.mp member)
  cases prev with
  | none =>
      rcases climbing.siblings_first wf absent with ⟨o', folding, climbing', enlarges, shown⟩
      exact ⟨o', none, folding, climbing', enlarges, fun c => by rw [shown c, wf.mirrors.mem_iff]⟩
  | some list =>
      rcases climbing.siblings_next wf step absent with ⟨o', folding, climbing', enlarges, shown⟩
      exact ⟨o', none, folding, climbing', enlarges, fun c => by rw [shown c, wf.mirrors.mem_iff]⟩

end Siblings

/-! ## Termination -/

section Total

variable {t : Tree} {o o' o'' : Overlay} {v : ViewPtr} {b : BranchPtr} {x : VbranchPtr}

/-- Vbranches are only attached in addition. -/
def Overlay.Attaches (o o' : Overlay) : Prop :=
  ∀ b, o.vbranchList b <+: o'.vbranchList b

theorem Overlay.Attaches.refl (o : Overlay) : Attaches o o :=
  fun _ => List.prefix_rfl

theorem Overlay.Attaches.trans (first : Attaches o o') (second : Attaches o' o'') :
    Attaches o o'' :=
  fun b => (first b).trans (second b)

theorem Overlay.Attaches.found (attaches : Attaches o o') (found : viewGetVbranch o v b = some x) :
    viewGetVbranch o' v b = some x :=
  (attaches b).find?_eq_some found

theorem attaches_addVbranch (t : Tree) (o : Overlay) (v : ViewPtr) (new : Vbranch) :
    Attaches o (addVbranch t o v new).1 := by
  intro b
  rw [addVbranch_eq]
  dsimp only
  rw [Function.update_apply]
  split
  · rename_i here
    rw [here]
    exact List.prefix_append _ _
  · exact List.prefix_rfl

theorem setParents_vbranchList (o : Overlay) (x : VbranchPtr) (list : List VbranchPtr) :
    (setParents o x list).vbranchList = o.vbranchList := by
  induction list generalizing o with
  | nil => rfl
  | cons z list ih => exact ih _

theorem attaches_expandSibling (t : Tree) (v : ViewPtr) (b : BranchPtr) (bs : List BranchPtr)
    (s : Overlay × Option (List VbranchPtr) × List VbranchPtr) :
    Attaches s.1 (bs.foldl (expandSibling t v b) s).1 := by
  induction bs generalizing s with
  | nil => exact Attaches.refl s.1
  | cons c bs ih =>
      rw [List.foldl_cons]
      refine Attaches.trans ?_ (ih _)
      rcases s with ⟨o, _ | prev, list⟩
      · exact attaches_addVbranch t o v _
      · simp only [expandSibling]
        split
        · intro d
          rw [setParents_vbranchList]
          exact attaches_addVbranch t o v _ d
        · exact attaches_addVbranch t o v _

/-- The climb from a branch below the root follows no null pointer. -/
theorem expandToLoop_total (fuel : ℕ) {prev : Option (List VbranchPtr)}
    (root : viewGetVbranch o v t.branch = some x) (low : Anc t.parent b t.branch) :
    ∃ s, expandToLoop t v fuel o b prev = .ok s := by
  induction fuel generalizing o b prev with
  | zero => exact ⟨_, rfl⟩
  | succ fuel ih =>
      cases found : viewGetVbranch o v b with
      | some y =>
          simp only [expandToLoop, found]
          cases prev with
          | none => exact ⟨_, rfl⟩
          | some list => exact ⟨_, rfl⟩
      | none =>
          cases step : (t.mem b).parent with
          | none =>
              rw [(anc_iff_of_root step).mp low, found] at root
              simp at root
          | some pb =>
              simp only [expandToLoop, found, step]
              apply ih
              · exact (attaches_expandSibling t v b _ (o, prev, [])).found root
              · rcases (anc_iff_of_parent step).mp low with top | above
                · rw [top, found] at root
                  simp at root
                · exact above

theorem viewExpandTo_total (root : viewGetVbranch o v t.branch = some x)
    (low : Anc t.parent b t.branch) (withChildren : Bool) :
    ∃ s, viewExpandTo t o v b withChildren = .ok s := by
  have path : ∃ s, expandPath t o v b = .ok s := by
    unfold expandPath
    split
    · exact ⟨_, rfl⟩
    · exact expandToLoop_total _ root low
  rcases path with ⟨s, climbed⟩
  rw [viewExpandTo, climbed]
  exact ⟨_, rfl⟩

/-! ### Other views -/

theorem view_of_viewGetVbranch (found : viewGetVbranch o v b = some x) : x.view = v := by
  have named := List.find?_some found
  simpa using named

/-- The entries of a list that is being built belong to the view. -/
def AllOf (v : ViewPtr) (list : List VbranchPtr) : Prop :=
  ∀ y ∈ list, y.view = v

theorem AllOf.concat {list : List VbranchPtr} (own : AllOf v list) (new : x.view = v) :
    AllOf v (list ++ [x]) := by
  intro y member
  rcases List.mem_append.mp member with old | last
  · exact own y old
  · rw [List.mem_singleton.mp last]
    exact new

theorem beside_expandSibling (t : Tree) (v : ViewPtr) (b : BranchPtr) (bs : List BranchPtr)
    (s : Overlay × Option (List VbranchPtr) × List VbranchPtr)
    (ownPrev : ∀ prev ∈ s.2.1, AllOf v prev) (own : AllOf v s.2.2) :
    Beside v s.1 (bs.foldl (expandSibling t v b) s).1 ∧
      AllOf v (bs.foldl (expandSibling t v b) s).2.2 := by
  induction bs generalizing s with
  | nil => exact ⟨Beside.refl v s.1, own⟩
  | cons c bs ih =>
      rw [List.foldl_cons]
      rcases s with ⟨o, _ | prev, list⟩
      · rcases ih (expandSibling t v b (o, none, list) c) (by simp [expandSibling])
          (own.concat rfl) with ⟨rest, all⟩
        exact ⟨(addVbranch_beside t o v _).trans rest, all⟩
      · by_cases here : c = b
        · have made : expandSibling t v b (o, some prev, list) c =
              (setParents (addVbranch t o v { branch := c, childList := prev }).1 ⟨v, o.vnext⟩ prev,
                none, list ++ [⟨v, o.vnext⟩]) := by
            simp only [expandSibling, if_pos here]
            rfl
          rw [made]
          rcases ih (_, none, list ++ [⟨v, o.vnext⟩]) (by simp) (own.concat rfl) with ⟨rest, all⟩
          have adopted := (relinks_setParents (addVbranch t o v { branch := c, childList := prev }).1
            ⟨v, o.vnext⟩ (ownPrev prev rfl)).beside
          exact ⟨(addVbranch_beside t o v _).trans (adopted.trans rest), all⟩
        · have made : expandSibling t v b (o, some prev, list) c =
              ((addVbranch t o v { branch := c }).1, some prev, list ++ [⟨v, o.vnext⟩]) := by
            simp only [expandSibling, if_neg here]
            rfl
          rw [made]
          rcases ih (_, some prev, list ++ [⟨v, o.vnext⟩]) (by simpa using ownPrev prev rfl)
            (own.concat rfl) with ⟨rest, all⟩
          exact ⟨(addVbranch_beside t o v _).trans rest, all⟩

theorem expandToLoop_beside (fuel : ℕ) {prev : Option (List VbranchPtr)} {r : Option VbranchPtr}
    (ownPrev : ∀ list ∈ prev, AllOf v list) (run : expandToLoop t v fuel o b prev = .ok (o', r)) :
    Beside v o o' := by
  induction fuel generalizing o b prev with
  | zero =>
      simp only [expandToLoop, Except.ok.injEq, Prod.mk.injEq] at run
      rw [← run.1]
      exact Beside.refl v o
  | succ fuel ih =>
      cases found : viewGetVbranch o v b with
      | some y =>
          simp only [expandToLoop, found] at run
          cases prev with
          | none =>
              simp only [Except.ok.injEq, Prod.mk.injEq] at run
              rw [← run.1]
              exact Beside.refl v o
          | some list =>
              simp only [Except.ok.injEq, Prod.mk.injEq] at run
              rw [← run.1]
              exact ((relinks_modify o (view_of_viewGetVbranch found) rfl).trans
                (relinks_setParents _ y (ownPrev list rfl))).beside
      | none =>
          simp only [expandToLoop, found] at run
          split at run
          · simp at run
          · rename_i pb _
            rcases beside_expandSibling t v b ((t.mem pb).childList.take (t.mem pb).childN.toNat)
              (o, prev, []) ownPrev (by simp [AllOf]) with ⟨first, own⟩
            exact first.trans (ih (by simpa using own) run)

theorem expandChildren_beside (t : Tree) (o : Overlay) (v : ViewPtr) (b : BranchPtr) :
    Beside v o (expandChildren t o v b) := by
  have added : ∀ (above : VbranchPtr) (bs : List BranchPtr) (s : Overlay × List VbranchPtr),
      Beside v s.1 (bs.foldl (fun s c =>
        ((addVbranch t s.1 v { branch := c, parent := some above }).1,
          s.2 ++ [(addVbranch t s.1 v { branch := c, parent := some above }).2])) s).1 := by
    intro above bs
    induction bs with
    | nil => exact fun s => Beside.refl v s.1
    | cons c bs ih =>
        intro s
        have rest := ih ((addVbranch t s.1 v { branch := c, parent := some above }).1,
          s.2 ++ [(addVbranch t s.1 v { branch := c, parent := some above }).2])
        exact (addVbranch_beside t s.1 v { branch := c, parent := some above }).trans rest
  unfold expandChildren
  split
  · exact Beside.refl v o
  · split
    · exact Beside.refl v o
    · rename_i y found
      exact (added y _ (o, [])).trans
        (relinks_modify _ (view_of_viewGetVbranch found) rfl).beside

/-- `view_expand_to` edits one view. -/
theorem viewExpandTo_beside {withChildren : Bool} {r : Option VbranchPtr}
    (run : viewExpandTo t o v b withChildren = .ok (o', r)) : Beside v o o' := by
  rcases Outcome.bind_eq_ok.mp run with ⟨⟨o₁, r₁⟩, climb, run⟩
  simp only [Outcome.pure_eq_ok, Except.ok.injEq, Prod.mk.injEq] at run
  have path : Beside v o o₁ := by
    unfold expandPath at climb
    split at climb
    · rw [← (Prod.mk.inj (Except.ok.inj climb)).1]
      exact Beside.refl v o
    · exact expandToLoop_beside _ (by simp) climb
  rw [← run.1]
  split
  · exact path.trans (expandChildren_beside t o₁ v b)
  · exact path

end Total

/-! ## The climb -/

section Climb

variable {want : Demands} {t : Tree} {o o' : Overlay} {v : ViewPtr} {a b c p : BranchPtr}
  {x y : VbranchPtr} {r : Option VbranchPtr}

/-- No hidden branch on the way up from `b` has a shown sibling. -/
def Clear (t : Tree) (o : Overlay) (v : ViewPtr) (b : BranchPtr) : Prop :=
  ∀ a p c, Anc t.parent b a → stand t o v a = none → t.parent a = some p → t.parent c = some p →
    stand t o v c = none

/-- A branch that left the index but not the forest has no vbranches. -/
def Sealed (t : Tree) (o : Overlay) : Prop :=
  ∀ b, ¬t.Indexed b → t.children b ≠ [] → o.vbranchList b = []

theorem Sealed.within (sealed : Sealed t o) (within : Within t v o o') : Sealed t o' := by
  intro b out parent
  rw [within.gone b out]
  exact sealed b out parent

/-- The searches on the way up from `b` find what stands for the branch. -/
def Searched (t : Tree) (o : Overlay) (v : ViewPtr) (b : BranchPtr) : Prop :=
  ∀ a, Anc t.parent b a → stand t o v a = viewGetVbranch o v a

theorem Sealed.searched (sealed : Sealed t o) (wf : t.WellFormed) (indexed : t.Indexed b) :
    Searched t o v b := by
  intro a up
  by_cases known : t.Indexed a
  · exact stand_of_indexed known
  · have inner : t.children a ≠ [] := by
      rcases anc_iff_eq_or_strictAnc.mp up with rfl | strict
      · exact absurd indexed known
      · rcases Relation.TransGen.tail'_iff.mp strict with ⟨c, _, step⟩
        exact List.ne_nil_of_mem (wf.mirrors.mem_iff.mpr step)
    rw [stand, if_neg known, viewGetVbranch, sealed a known inner]
    rfl

theorem Searched.within (searched : Searched t o v b) (within : Within t v o o') :
    Searched t o' v b := by
  intro a up
  by_cases known : t.Indexed a
  · exact stand_of_indexed known
  · have before := searched a up
    rw [stand, if_neg known] at before ⊢
    rw [viewGetVbranch, within.gone a known]
    exact before

theorem Searched.above (searched : Searched t o v b) (up : Anc t.parent b a) :
    Searched t o v a :=
  fun c upper => searched c (up.trans upper)

/-- The branches that a climb from `b` shows: all siblings of the hidden branches on the way. -/
def OnClimb (t : Tree) (o : Overlay) (v : ViewPtr) (b c : BranchPtr) : Prop :=
  ∃ a p, Anc t.parent b a ∧ stand t o v a = none ∧ t.parent a = some p ∧ t.parent c = some p

/-- The branch `e` is the first shown one on the way up from `b`. -/
structure FirstShown (t : Tree) (o : Overlay) (v : ViewPtr) (b e : BranchPtr) (y : VbranchPtr) :
    Prop where
  anc : Anc t.parent b e
  present : stand t o v e = some y
  hidden : ∀ {a}, Anc t.parent b a → StrictAnc t.parent a e → stand t o v a = none

theorem Shows.present_above (shows : Shows want t o v {t.branch}) (wf : t.WellFormed)
    (present : stand t o v b = some x) (anc : Anc t.parent b a) : stand t o v a ≠ none := by
  apply shows.shadow.present_of_anc (by simp [present]) anc _ wf.acyclic
  have top := shows.shadow.anc_top wf.acyclic present
  rcases anc.total top with up | up
  · exact up
  · rw [anc_iff_of_root wf.root_parent] at up
    rw [up]

theorem ncard_strictAnc_lt (wf : t.WellFormed) (step : t.parent b = some p) :
    { a | StrictAnc t.parent p a }.ncard < { a | StrictAnc t.parent b a }.ncard := by
  apply Set.ncard_lt_ncard
  · refine ⟨fun a strict => (anc_of_parent step).trans_strict strict, ?_⟩
    intro all
    exact wf.acyclic.strict_irrefl p (all ((strictAnc_iff_of_parent step).mpr (anc_refl _ p)))
  · apply Set.Finite.subset (Finset.finite_toSet (Finset.range t.next))
    intro a strict
    rcases Relation.TransGen.tail'_iff.mp strict with ⟨z, _, last⟩
    exact (wf.supported z a last).2

/-- The loop of `view_expand_to` has fuel for every climb. -/
theorem ncard_strictAnc_lt_fuel (wf : t.WellFormed) (b : BranchPtr) :
    { a | StrictAnc t.parent b a }.ncard < t.next + 1 := by
  have sub : { a | StrictAnc t.parent b a } ⊆ (Finset.range t.next : Set ℕ) := by
    intro a strict
    rcases Relation.TransGen.tail'_iff.mp strict with ⟨z, _, last⟩
    exact (wf.supported z a last).2
  have bound := Set.ncard_le_ncard sub (Finset.finite_toSet _)
  rw [Set.ncard_coe_finset, Finset.card_range] at bound
  omega

/-- Above a shown branch there is nothing to climb for. -/
theorem Shows.not_onClimb (shows : Shows want t o v {t.branch}) (wf : t.WellFormed)
    (present : stand t o v b = some x) : ¬OnClimb t o v b c := by
  rintro ⟨a, p, up, absent, _⟩
  exact shows.present_above wf present up absent

/-- The climb is over: the shown branch takes over the list of the last round. -/
theorem Climbing.arrive {fuel : ℕ} {prev : Option (List VbranchPtr)}
    (climbing : Climbing want t o v b prev) (wf : t.WellFormed) (present : stand t o v b = some y)
    (run : expandToLoop t v (fuel + 1) o b prev = .ok (o', r)) :
    Shows want t o' v {t.branch} ∧ Enlarges t v o o' ∧ stand t o' v = stand t o v ∧ r = some y := by
  have found : viewGetVbranch o v b = some y := by
    rw [← stand_of_indexed (stand_eq_some.mp present).1]
    exact present
  cases prev with
  | none =>
      simp only [Treedb.expandToLoop, found, Except.ok.injEq, Prod.mk.injEq] at run
      rcases run with ⟨rfl, rfl⟩
      refine ⟨?_, Enlarges.refl t v o, rfl, rfl⟩
      convert climbing.shows using 1
      ext c
      simp
  | some list =>
      simp only [Treedb.expandToLoop, found, Except.ok.injEq, Prod.mk.injEq] at run
      rcases run with ⟨same, rfl⟩
      have built := climbing.built rfl
      rcases climbing.shows.handOver wf present
        (by
          intro z
          rw [built, mem_shownChildren wf])
        (by
          rw [built]
          exact climbing.shows.nodup_shownChildren wf b)
        (fun _ => by rw [built]) same with ⟨relinks, enlarges, after⟩
      refine ⟨?_, enlarges, relinks.stand t v, rfl⟩
      convert after using 1
      ext c
      simp only [Set.mem_singleton_iff, Option.isSome_some, true_and, Set.mem_ofPred_eq]
      constructor
      · rintro rfl
        exact ⟨.inl rfl, by simp [wf.root_parent]⟩
      · rintro ⟨top | child, other⟩
        · exact top
        · exact absurd child other

section Round

variable {o₁ : Overlay} {pb : BranchPtr}

/-- A round changes nothing on the rest of the way up. -/
theorem round_above (wf : t.WellFormed)
    (shown : ∀ c, stand t o₁ v c ≠ none ↔ stand t o v c ≠ none ∨ t.parent c = some pb)
    (up : Anc t.parent pb a) : stand t o₁ v a = none ↔ stand t o v a = none := by
  have above : t.parent a ≠ some pb := by
    intro child
    exact wf.acyclic.not_anc_of_strict ((strictAnc_iff_of_parent child).mpr (anc_refl _ _)) up
  have both := not_congr (shown a)
  simpa [above] using both

theorem Clear.round (clear : Clear t o v b) (wf : t.WellFormed) (step : t.parent b = some pb)
    (shown : ∀ c, stand t o₁ v c ≠ none ↔ stand t o v c ≠ none ∨ t.parent c = some pb) :
    Clear t o₁ v pb := by
  intro a q c up absent stepA child
  have before := clear a q c ((anc_of_parent step).trans up) ((round_above wf shown up).mp absent)
    stepA child
  by_contra there
  rcases (shown c).mp there with early | sibling
  · exact early before
  · rw [child, Option.some.injEq] at sibling
    rw [sibling] at stepA
    exact wf.acyclic.not_anc_of_strict ((strictAnc_iff_of_parent stepA).mpr (anc_refl _ _)) up

/-- A round shows what the climb from `b` shows and the climb from its parent does not. -/
theorem onClimb_round (wf : t.WellFormed) (step : t.parent b = some pb)
    (absent : stand t o v b = none)
    (shown : ∀ c, stand t o₁ v c ≠ none ↔ stand t o v c ≠ none ∨ t.parent c = some pb) :
    stand t o₁ v c ≠ none ∨ OnClimb t o₁ v pb c ↔ stand t o v c ≠ none ∨ OnClimb t o v b c := by
  rw [shown c]
  constructor
  · rintro ((before | child) | ⟨a, q, up, hidden, stepA, child⟩)
    · exact .inl before
    · exact .inr ⟨b, pb, anc_refl _ b, absent, step, child⟩
    · exact .inr ⟨a, q, (anc_of_parent step).trans up, (round_above wf shown up).mp hidden, stepA,
        child⟩
  · rintro (before | ⟨a, q, up, hidden, stepA, child⟩)
    · exact .inl (.inl before)
    · rcases (anc_iff_of_parent step).mp up with rfl | up
      · rw [step, Option.some.injEq] at stepA
        exact .inl (.inr (stepA ▸ child))
      · exact .inr ⟨a, q, up, (round_above wf shown up).mpr hidden, stepA, child⟩

theorem FirstShown.round {e : BranchPtr} (first : FirstShown t o₁ v pb e y) (wf : t.WellFormed)
    (step : t.parent b = some pb) (absent : stand t o v b = none) (enlarges : Enlarges t v o o₁)
    (shown : ∀ c, stand t o₁ v c ≠ none ↔ stand t o v c ≠ none ∨ t.parent c = some pb) :
    FirstShown t o v b e y := by
  refine ⟨(anc_of_parent step).trans first.anc, ?_, ?_⟩
  · cases before : stand t o v e with
    | none =>
        have gone := (round_above wf shown first.anc).mpr before
        rw [first.present] at gone
        simp at gone
    | some z =>
        have still := enlarges.kept before
        rw [first.present] at still
        exact still.symm
  · intro a up strict
    rcases (anc_iff_of_parent step).mp up with rfl | up
    · exact absent
    · exact enlarges.absent (first.hidden up strict)

end Round

/-- The climb of `view_expand_to` ends at the first shown branch and shows what it should. -/
theorem Climbing.expandToLoop (wf : t.WellFormed) (fuel : ℕ) {prev : Option (List VbranchPtr)}
    (climbing : Climbing want t o v b prev) (clear : Clear t o v b)
    (searched : Searched t o v b) (enough : { a | StrictAnc t.parent b a }.ncard < fuel)
    (run : expandToLoop t v fuel o b prev = .ok (o', r)) :
    Shows want t o' v {t.branch} ∧ Enlarges t v o o' ∧
      (∀ c, stand t o' v c ≠ none ↔ stand t o v c ≠ none ∨ OnClimb t o v b c) ∧
      ∃ e y, r = some y ∧ FirstShown t o v b e y := by
  induction fuel generalizing o b prev with
  | zero => simp at enough
  | succ fuel ih =>
      cases found : stand t o v b with
      | some y =>
          have first : FirstShown t o v b b y := by
            refine ⟨anc_refl _ b, found, fun up strict => ?_⟩
            exact absurd up (wf.acyclic.not_anc_of_strict strict)
          rcases climbing.arrive wf found run with ⟨after, enlarges, stands, result⟩
          refine ⟨after, enlarges, fun c => ?_, b, y, result, first⟩
          have still := found
          rw [← stands] at still
          have nothing := after.not_onClimb (c := c) wf still
          rw [OnClimb, stands, ← OnClimb] at nothing
          simp [stands, nothing]
      | none =>
          have absent := found
          rw [searched b (anc_refl _ b)] at found
          cases step : t.parent b with
          | none => simp [Treedb.expandToLoop, found, show (t.mem b).parent = none from step] at run
          | some pb =>
              have hidden : ∀ c, t.parent c = some pb → stand t o v c = none :=
                fun c child => clear b pb c (anc_refl _ b) absent step child
              rcases climbing.siblings wf step hidden with
                ⟨o₁, prev', folding, climbing₁, enlarges₁, shown₁⟩
              simp only [Treedb.expandToLoop, found, show (t.mem b).parent = some pb from step,
                wf.take_children pb, folding] at run
              have searched₁ := (searched.above (anc_of_parent step)).within enlarges₁.within
              have fewer := ncard_strictAnc_lt wf step
              rcases ih climbing₁ (clear.round wf step shown₁) searched₁ (by omega) run with
                ⟨after, enlarges, shown, e, y, result, first⟩
              exact ⟨after, enlarges₁.trans enlarges,
                fun c => (shown c).trans (onClimb_round wf step absent shown₁), e, y, result,
                first.round wf step absent enlarges₁ shown₁⟩

/-- With no shown children there is nothing that the last step could overwrite. -/
theorem Shows.expandChildren (shows : Shows want t o v {t.branch}) (wf : t.WellFormed)
    (present : stand t o v b = some x) (hidden : ∀ c, t.parent c = some b → stand t o v c = none) :
    Shows want t (expandChildren t o v b) v {t.branch} ∧ Enlarges t v o (expandChildren t o v b) ∧
      ∀ c, stand t (Treedb.expandChildren t o v b) v c ≠ none ↔
        stand t o v c ≠ none ∨ t.parent c = some b := by
  by_cases empty : t.children b = []
  · have nothing : Treedb.expandChildren t o v b = o := by
      rw [Treedb.expandChildren, if_pos ((wf.childN_eq_zero_iff b).mpr empty)]
    rw [nothing]
    refine ⟨shows, Enlarges.refl t v o, fun c => ?_⟩
    have childless : t.parent c ≠ some b := by
      intro child
      have member := wf.mirrors.mem_iff.mpr child
      simp [empty] at member
    simp [childless]
  · have count : (t.mem b).childN ≠ 0 := mt (wf.childN_eq_zero_iff b).mp empty
    have found : viewGetVbranch o v b = some x := by
      rw [← stand_of_indexed (stand_eq_some.mp present).1]
      exact present
    have same := shows.foldl_addTo wf (t.children b) (some x)
      (fun c member => wf.indexed_of_parent (wf.mirrors.mem_iff.mp member)) (wf.mirrors.nodup b)
      (fun c member => hidden c (wf.mirrors.mem_iff.mp member)) []
    have unfolded : Treedb.expandChildren t o v b = unfoldAt t o v b x := by
      simp only [Treedb.expandChildren, if_neg count, found, wf.take_children b, unfoldAt, ← same]
      rfl
    rw [unfolded]
    rcases shows.unfold wf present with ⟨after, enlarges, shown, _⟩
    exact ⟨after, enlarges, shown⟩

/-- No sibling of a branch below the folded vbranch `x` is shown. -/
theorem Shows.hidden_of_folded (shows : Shows want t o v {t.branch}) (wf : t.WellFormed)
    (present : stand t o v b = some x) (folded : o.vchildren x = []) (child : t.parent c = some b) :
    stand t o v c = none := by
  cases there : stand t o v c with
  | none => rfl
  | some y =>
      have low : c ≠ t.branch := wf.ne_root child
      have member := (shows.shadow.mem_down present).mpr ⟨c, child, low, there⟩
      simp [folded] at member

theorem Shows.hidden_child (shows : Shows want t o v {t.branch}) (wf : t.WellFormed)
    (absent : stand t o v b = none) (child : t.parent c = some b) : stand t o v c = none := by
  apply shows.shadow.absent_child absent child
  exact wf.ne_root child

/-- What the climb does to a view, if it overwrites no list that is in use. -/
theorem Shows.expandPath (shows : Shows want t o v {t.branch}) (wf : t.WellFormed)
    (searched : Searched t o v b) (clear : Clear t o v b)
    (run : expandPath t o v b = .ok (o', r)) :
    Shows want t o' v {t.branch} ∧ Enlarges t v o o' ∧
      (∀ c, stand t o' v c ≠ none ↔ stand t o v c ≠ none ∨ OnClimb t o v b c) ∧
      (t.parent b = none ∧ r = none ∨
        stand t o' v b ≠ none ∧ ∃ e y, r = some y ∧ FirstShown t o v b e y) := by
  cases step : t.parent b with
  | none =>
      simp only [Treedb.expandPath, show (t.mem b).parent = none from step, Except.ok.injEq,
        Prod.mk.injEq] at run
      rcases run with ⟨rfl, rfl⟩
      refine ⟨shows, Enlarges.refl t v o, fun c => ?_, .inl ⟨rfl, rfl⟩⟩
      refine ⟨.inl, fun either => either.elim id ?_⟩
      rintro ⟨a, p, up, _, stepA, _⟩
      rw [(anc_iff_of_root step).mp up, step] at stepA
      simp at stepA
  | some pb =>
      simp only [Treedb.expandPath, show (t.mem b).parent = some pb from step] at run
      have climbing : Climbing want t o v b none := by
        refine ⟨?_, by simp⟩
        convert shows using 1
        ext c
        simp
      rcases climbing.expandToLoop wf _ clear searched (ncard_strictAnc_lt_fuel wf b) run with ⟨after, enlarges, shown, ends⟩
      refine ⟨after, enlarges, shown, .inr ⟨?_, ends⟩⟩
      rw [shown b]
      by_cases present : stand t o v b = none
      · exact .inr ⟨b, pb, anc_refl _ b, present, step, step⟩
      · exact .inl present

/-- A climb does not end below its start. -/
theorem not_onClimb_child (wf : t.WellFormed) (child : t.parent c = some b) :
    ¬OnClimb t o v b c := by
  rintro ⟨a, p, up, _, stepA, child'⟩
  rw [child, Option.some.injEq] at child'
  rw [← child'] at stepA
  exact wf.acyclic.not_anc_of_strict ((strictAnc_iff_of_parent stepA).mpr (anc_refl _ _)) up

/-- What `view_expand_to` does to a view, if it overwrites no list that is in use. -/
theorem Shows.viewExpandTo {withChildren : Bool} (shows : Shows want t o v {t.branch})
    (wf : t.WellFormed) (searched : Searched t o v b) (indexed : t.Indexed b) (clear : Clear t o v b)
    (folded : withChildren = true → ∀ x, stand t o v b = some x →
      ∀ c, t.parent c = some b → stand t o v c = none)
    (run : viewExpandTo t o v b withChildren = .ok (o', r)) :
    Shows want t o' v {t.branch} ∧ Enlarges t v o o' ∧
      (∀ c, stand t o' v c ≠ none ↔ stand t o v c ≠ none ∨ OnClimb t o v b c ∨
        withChildren = true ∧ stand t o' v b ≠ none ∧ t.parent c = some b) ∧
      (t.parent b = none ∧ r = none ∨
        stand t o' v b ≠ none ∧ ∃ e y, r = some y ∧ FirstShown t o v b e y) := by
  rcases Outcome.bind_eq_ok.mp run with ⟨⟨o₁, r₁⟩, climb, run⟩
  simp only [Outcome.pure_eq_ok, Except.ok.injEq, Prod.mk.injEq] at run
  rcases run with ⟨after, rfl⟩
  rcases shows.expandPath wf searched clear climb with ⟨shows₁, enlarges₁, shown₁, ends⟩
  cases withChildren with
  | false =>
      simp only [Bool.false_eq_true, if_false] at after
      subst after
      exact ⟨shows₁, enlarges₁, fun c => by simp [shown₁ c], ends⟩
  | true =>
      simp only [if_true] at after
      subst after
      cases present : stand t o₁ v b with
      | none =>
          have missing : viewGetVbranch o₁ v b = none := by
            rw [← stand_of_indexed indexed]
            exact present
          have nothing : Treedb.expandChildren t o₁ v b = o₁ := by
            rw [Treedb.expandChildren]
            split
            · rfl
            · simp only [missing]
          rw [nothing]
          refine ⟨shows₁, enlarges₁, fun c => by simp [shown₁ c, present], ?_⟩
          rcases ends with rootless | ⟨there, _⟩
          · exact .inl rootless
          · exact absurd present there
      | some x =>
          have hidden : ∀ c, t.parent c = some b → stand t o₁ v c = none := by
            intro c child
            by_contra there
            rcases (shown₁ c).mp there with before | climbed
            · cases earlier : stand t o v b with
              | none => exact before (shows.hidden_child wf earlier child)
              | some z => exact before (folded rfl z earlier c child)
            · exact not_onClimb_child wf child climbed
          rcases shows₁.expandChildren wf present hidden with ⟨final, enlarges, shown⟩
          have there : stand t (Treedb.expandChildren t o₁ v b) v b ≠ none := by
            rw [enlarges.kept present]
            simp
          refine ⟨final, enlarges₁.trans enlarges, ?_, ?_⟩
          · intro c
            rw [shown c, shown₁ c, or_assoc]
            simp [there]
          · rcases ends with rootless | ⟨_, first⟩
            · exact .inl rootless
            · exact .inr ⟨there, first⟩

end Climb

end Treedb
