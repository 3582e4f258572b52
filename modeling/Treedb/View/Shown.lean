import Treedb.Forest.Shadow
import Treedb.Tree.WellFormed

/-!
# What a view shows

A view is a shadow of the tree: its vbranches are linked as the branches are that they stand for. The
invariant of one view is `Shows`. It is stated with a set of tops, so that it also describes a view
in the middle of an operation, when some vbranches are not linked yet; between operations the only
top is the root.

Not everything about a view holds at all times, so what is asked for is a parameter (`Demands`). A
branch that was deleted while a view showed it leaves a vbranch behind that the view can still find in
its index, and a move can leave a list of vbranches in another order than that of the tree.
-/

namespace Treedb

open Forest

namespace Overlay

/-- The vbranches of a view that are attached to a branch. -/
def mine (o : Overlay) (v : ViewPtr) (b : BranchPtr) : List VbranchPtr :=
  (o.vbranchList b).filter fun vb => vb.view = v

theorem viewGetVbranch_eq (o : Overlay) (v : ViewPtr) (b : BranchPtr) :
    viewGetVbranch o v b = (o.mine v b).head? := by
  rw [viewGetVbranch, mine, List.head?_filter]

open Classical in
/-- The vbranch that stands in a view for a branch of the index. -/
noncomputable def stand (t : Tree) (o : Overlay) (v : ViewPtr) (b : BranchPtr) :
    Option VbranchPtr :=
  if t.Indexed b then viewGetVbranch o v b else none

variable {t : Tree} {o o' : Overlay} {v w : ViewPtr} {b : BranchPtr} {vb : VbranchPtr}

theorem stand_of_indexed (indexed : t.Indexed b) : stand t o v b = viewGetVbranch o v b :=
  if_pos indexed

theorem stand_eq_some : stand t o v b = some vb ↔ t.Indexed b ∧ (o.mine v b).head? = some vb := by
  rw [← viewGetVbranch_eq]
  unfold stand
  split
  · rename_i indexed
    simp [indexed]
  · rename_i gone
    simp [gone]

theorem mem_mine : vb ∈ o.mine v b ↔ vb ∈ o.vbranchList b ∧ vb.view = v := by
  simp [mine]

theorem mine_eq_nil (bare : o.vbranchList b = []) : o.mine v b = [] := by
  simp [mine, bare]

theorem view_of_stand (present : stand t o v b = some vb) : vb.view = v :=
  (mem_mine.mp (List.mem_of_head? (stand_eq_some.mp present).2)).2

theorem stand_congr {t' : Tree} (indexed : t'.Indexed b ↔ t.Indexed b)
    (lists : o'.mine v b = o.mine v b) : stand t' o' v b = stand t o v b := by
  by_cases known : t.Indexed b
  · rw [stand_of_indexed known, stand_of_indexed (indexed.mpr known), viewGetVbranch_eq,
      viewGetVbranch_eq, lists]
  · rw [stand, stand, if_neg known, if_neg fun known' => known (indexed.mp known')]

/-! ## Frames -/

/-- The view `v` is as before. -/
structure Keeps (v : ViewPtr) (o o' : Overlay) : Prop where
  vmem : ∀ vb : VbranchPtr, vb.view = v → o'.vmem vb = o.vmem vb
  vnext : o.vnext ≤ o'.vnext
  view : o'.views v = o.views v
  mine : ∀ b, o'.mine v b = o.mine v b

theorem Keeps.refl (v : ViewPtr) (o : Overlay) : Keeps v o o :=
  ⟨fun _ _ => rfl, le_refl _, rfl, fun _ => rfl⟩

theorem Keeps.trans {o'' : Overlay} (first : Keeps v o o') (second : Keeps v o' o'') :
    Keeps v o o'' where
  vmem := fun vb own => (second.vmem vb own).trans (first.vmem vb own)
  vnext := first.vnext.trans second.vnext
  view := second.view.trans first.view
  mine := fun b => (second.mine b).trans (first.mine b)

theorem Keeps.stand (keeps : Keeps v o o') (t : Tree) : stand t o' v = stand t o v := by
  funext b
  exact stand_congr Iff.rfl (keeps.mine b)

/-- The other views than `v` are as before. -/
structure Beside (v : ViewPtr) (o o' : Overlay) : Prop where
  vmem : ∀ vb : VbranchPtr, vb.view ≠ v → o'.vmem vb = o.vmem vb
  vnext : o.vnext ≤ o'.vnext
  views : ∀ w, w ≠ v → o'.views w = o.views w
  mine : ∀ w b, w ≠ v → o'.mine w b = o.mine w b

/-- Only what the view `v` shows changed. -/
structure Within (t : Tree) (v : ViewPtr) (o o' : Overlay) : Prop extends Beside v o o' where
  view_id : (o'.views v).id = (o.views v).id
  view_root : (o'.views v).vbranch = (o.views v).vbranch
  viewNext : o'.viewNext = o.viewNext
  viewIndex : o'.viewIndex = o.viewIndex
  gone : ∀ b, ¬t.Indexed b → o'.vbranchList b = o.vbranchList b

theorem Beside.keeps (beside : Beside v o o') (other : w ≠ v) : Keeps w o o' where
  vmem := by
    rintro vb rfl
    exact beside.vmem vb other
  vnext := beside.vnext
  view := beside.views w other
  mine := fun b => beside.mine w b other

theorem Beside.refl (v : ViewPtr) (o : Overlay) : Beside v o o :=
  ⟨fun _ _ => rfl, le_refl _, fun _ _ => rfl, fun _ _ _ => rfl⟩

theorem Beside.trans {o'' : Overlay} (first : Beside v o o') (second : Beside v o' o'') :
    Beside v o o'' where
  vmem := fun vb other => (second.vmem vb other).trans (first.vmem vb other)
  vnext := first.vnext.trans second.vnext
  views := fun w other => (second.views w other).trans (first.views w other)
  mine := fun w b other => (second.mine w b other).trans (first.mine w b other)

theorem Within.refl (t : Tree) (v : ViewPtr) (o : Overlay) : Within t v o o where
  vmem := fun _ _ => rfl
  vnext := le_refl _
  views := fun _ _ => rfl
  view_id := rfl
  view_root := rfl
  viewNext := rfl
  viewIndex := rfl
  mine := fun _ _ _ => rfl
  gone := fun _ _ => rfl

theorem Within.trans {o'' : Overlay} (first : Within t v o o') (second : Within t v o' o'') :
    Within t v o o'' where
  toBeside := first.toBeside.trans second.toBeside
  view_id := second.view_id.trans first.view_id
  view_root := second.view_root.trans first.view_root
  viewNext := second.viewNext.trans first.viewNext
  viewIndex := second.viewIndex.trans first.viewIndex
  gone := fun b out => (second.gone b out).trans (first.gone b out)

/-- At most links and marks of vbranches changed. -/
structure Alike (o o' : Overlay) : Prop where
  branch : ∀ vb, (o'.vmem vb).branch = (o.vmem vb).branch
  vnext : o'.vnext = o.vnext
  views : o'.views = o.views
  viewNext : o'.viewNext = o.viewNext
  viewIndex : o'.viewIndex = o.viewIndex
  vbranchList : o'.vbranchList = o.vbranchList

theorem Alike.mine (alike : Alike o o') (w : ViewPtr) (b : BranchPtr) :
    o'.mine w b = o.mine w b := by
  rw [Overlay.mine, alike.vbranchList, Overlay.mine]

theorem Alike.stand (alike : Alike o o') (t : Tree) (w : ViewPtr) :
    stand t o' w = stand t o w := by
  funext b
  exact stand_congr Iff.rfl (alike.mine w b)

/-- At most links and marks of vbranches of the view `v` changed. -/
structure Relinks (v : ViewPtr) (o o' : Overlay) : Prop extends Alike o o' where
  others : ∀ vb : VbranchPtr, vb.view ≠ v → o'.vmem vb = o.vmem vb

theorem Relinks.refl (v : ViewPtr) (o : Overlay) : Relinks v o o :=
  ⟨⟨fun _ => rfl, rfl, rfl, rfl, rfl, rfl⟩, fun _ _ => rfl⟩

theorem Relinks.trans {o'' : Overlay} (first : Relinks v o o') (second : Relinks v o' o'') :
    Relinks v o o'' where
  others := fun vb other => (second.others vb other).trans (first.others vb other)
  branch := fun vb => (second.branch vb).trans (first.branch vb)
  vnext := second.vnext.trans first.vnext
  views := second.views.trans first.views
  viewNext := second.viewNext.trans first.viewNext
  viewIndex := second.viewIndex.trans first.viewIndex
  vbranchList := second.vbranchList.trans first.vbranchList

theorem Relinks.beside (relinks : Relinks v o o') : Beside v o o' where
  vmem := relinks.others
  vnext := relinks.vnext.ge
  views := fun w _ => by rw [relinks.views]
  mine := fun w b _ => relinks.mine w b

theorem Relinks.within (relinks : Relinks v o o') (t : Tree) : Within t v o o' where
  toBeside := relinks.beside
  view_id := by rw [relinks.views]
  view_root := by rw [relinks.views]
  viewNext := relinks.viewNext
  viewIndex := relinks.viewIndex
  gone := fun b _ => by rw [relinks.vbranchList]

theorem relinks_modify (o : Overlay) {f : Vbranch → Vbranch} (own : vb.view = v)
    (same : (f (o.vmem vb)).branch = (o.vmem vb).branch) : Relinks v o (o.modify vb f) where
  others := by
    intro other ne
    apply Function.update_of_ne
    rintro rfl
    exact ne own
  branch := by
    intro other
    simp only [modify, Function.update_apply]
    split
    · rename_i here
      rw [same, here]
    · rfl
  vnext := rfl
  views := rfl
  viewNext := rfl
  viewIndex := rfl
  vbranchList := rfl

theorem relinks_push (o : Overlay) (v : ViewPtr) (msg : Message) : Relinks v o (o.push msg) :=
  ⟨⟨fun _ => rfl, rfl, rfl, rfl, rfl, rfl⟩, fun _ _ => rfl⟩

theorem keeps_push (o : Overlay) (v : ViewPtr) (msg : Message) : Keeps v o (o.push msg) :=
  ⟨fun _ _ => rfl, le_refl _, rfl, fun _ => rfl⟩

theorem modify_vmem (o : Overlay) (vb x : VbranchPtr) (f : Vbranch → Vbranch) :
    (o.modify vb f).vmem x = if x = vb then f (o.vmem x) else o.vmem x := by
  simp only [modify, Function.update_apply]
  split
  · rename_i here
    rw [here]
  · rfl

end Overlay

open Overlay

/-- A filter that lets more through keeps what was let through before, in its order. -/
theorem filterMap_sublist_of_kept {α β : Type} {f g : α → Option β} {list : List α}
    (kept : ∀ a b, f a = some b → g a = some b) :
    (list.filterMap f).Sublist (list.filterMap g) := by
  induction list with
  | nil => exact List.Sublist.slnil
  | cons a list ih =>
      cases found : f a with
      | none =>
          rw [List.filterMap_cons_none found]
          exact ih.trans ((List.sublist_cons_self a list).filterMap g)
      | some b =>
          rw [List.filterMap_cons_some found, List.filterMap_cons_some (kept a b found)]
          exact ih.cons_cons b

/-- One more entry, put where it is in the whole list, if all others are let through. -/
theorem insertIdx_filterMap {β : Type} {f : ℕ → Option β} {list : List ℕ} {c : ℕ} (x : β)
    (nodup : list.Nodup) (member : c ∈ list) (hidden : f c = none)
    (others : ∀ a ∈ list, a ≠ c → f a ≠ none) :
    list.idxOf c ≤ (list.filterMap f).length ∧
      (list.filterMap f).insertIdx (list.idxOf c) x =
        list.filterMap (Function.update f c (some x)) := by
  induction list with
  | nil => simp at member
  | cons a list ih =>
      rw [List.nodup_cons] at nodup
      by_cases here : a = c
      · subst here
        have same : list.filterMap (Function.update f a (some x)) = list.filterMap f := by
          apply List.filterMap_congr
          intro b inside
          apply Function.update_of_ne
          rintro rfl
          exact nodup.1 inside
        rw [List.idxOf_cons_self, List.filterMap_cons_none hidden,
          List.filterMap_cons_some (Function.update_self ..), same]
        exact ⟨Nat.zero_le _, rfl⟩
      · have rest := (List.mem_cons.mp member).resolve_left (Ne.symm here)
        rcases ih nodup.2 rest fun b inside => others b (List.mem_cons_of_mem a inside) with
          ⟨short, same⟩
        rcases Option.ne_none_iff_exists'.mp (others a List.mem_cons_self here) with ⟨y, there⟩
        rw [List.idxOf_cons_ne _ here, List.filterMap_cons_some there,
          List.filterMap_cons_some ((Function.update_of_ne here _ _).trans there),
          List.insertIdx_succ_cons, same]
        exact ⟨Nat.succ_le_succ short, rfl⟩

/-- What is left of a vbranch whose branch was deleted. -/
structure Overlay.Stale (t : Tree) (o : Overlay) (v : ViewPtr) (vb : VbranchPtr) : Prop where
  view : vb.view = v
  cell : vb.cell < o.vnext
  allocated : (o.vmem vb).branch < t.next
  gone : ¬t.Indexed (o.vmem vb).branch
  bare : t.children (o.vmem vb).branch = []
  folded : o.vchildren vb = []

/-- What is asked of a view beyond being a shadow of the tree. -/
structure Demands where
  /-- The index of the view lists what the view shows. -/
  index : Prop
  /-- The index may hold what deleted branches left behind. -/
  stale : Prop
  /-- The lists of vbranches are in the order of the tree. -/
  order : Prop

namespace Demands

/-- The index of a view is to be kept up to date, the order of its lists is not. -/
def indexed (stale : Prop) : Demands :=
  ⟨True, stale, False⟩

/-- The view is a shadow of the tree, and no more. -/
def bare : Demands :=
  ⟨False, False, False⟩

/-- The lists of the view are in order; its index does not count. -/
def ordered : Demands :=
  ⟨False, False, True⟩

end Demands

/-- The view `v` is a shadow of the tree and meets the demands. -/
structure Shows (want : Demands) (t : Tree) (o : Overlay) (v : ViewPtr) (tops : Set BranchPtr) :
    Prop where
  shadow : Shadow t.parent tops (stand t o v) o.vparent o.vchildren
  root : stand t o v t.branch = some (o.views v).vbranch
  root_top : t.branch ∈ tops
  rootless : o.vparent (o.views v).vbranch = none
  branch_eq : ∀ {b vb}, stand t o v b = some vb → (o.vmem vb).branch = b
  cell_lt : ∀ {b vb}, stand t o v b = some vb → vb.cell < o.vnext
  alone : ∀ {b}, t.Indexed b → (o.mine v b).length ≤ 1
  listed : want.index → ∀ {b vb}, stand t o v b = some vb →
    vbranchIndexGet o v (t.mem b).id = some vb
  index_spec : want.index → ∀ {k vb}, vbranchIndexGet o v k = some vb →
    (∃ b, stand t o v b = some vb ∧ (t.mem b).id = k) ∨ want.stale ∧ Stale t o v vb
  sorted : want.order → ∀ {b vb}, stand t o v b = some vb →
    (o.vchildren vb).Sublist ((t.children b).filterMap (stand t o v))

namespace Shows

variable {want : Demands} {t t' : Tree} {o o' : Overlay} {v w : ViewPtr} {tops tops' : Set BranchPtr}
  {a b c p : BranchPtr} {x y vb : VbranchPtr} {list : List VbranchPtr}

theorem mine_eq (shows : Shows want t o v tops) (indexed : t.Indexed b) :
    o.mine v b = (stand t o v b).toList := by
  rw [stand_of_indexed indexed, viewGetVbranch_eq]
  have short := shows.alone indexed
  rcases mine : o.mine v b with _ | ⟨x, _ | ⟨y, rest⟩⟩
  · rfl
  · rfl
  · rw [mine] at short
    simp at short

theorem attached (shows : Shows want t o v tops) (indexed : t.Indexed b)
    (member : vb ∈ o.vbranchList b) (own : vb.view = v) : stand t o v b = some vb := by
  have mine : vb ∈ o.mine v b := mem_mine.mpr ⟨member, own⟩
  rw [shows.mine_eq indexed, Option.mem_toList] at mine
  exact mine

/-- A view that meets demands is a shadow of the tree. -/
theorem bare (shows : Shows want t o v tops) : Shows .bare t o v tops :=
  { shows with
    listed := False.elim
    index_spec := False.elim
    sorted := False.elim }

theorem keeps (shows : Shows want t o v tops) (keeps : Keeps v o o') :
    Shows want t o' v tops := by
  have stands := keeps.stand t
  have own : ∀ {b vb}, stand t o v b = some vb → o'.vmem vb = o.vmem vb :=
    fun present => keeps.vmem _ (view_of_stand present)
  refine ⟨?_, ?_, shows.root_top, ?_, ?_, ?_, ?_, ?_, ?_, ?_⟩
  · rw [stands]
    apply shows.shadow.congr_links
    · intro a x present
      rw [vparent, own present, vparent]
    · intro a x present
      rw [vchildren, own present, vchildren]
  · rw [stands, keeps.view]
    exact shows.root
  · rw [keeps.view, vparent, own shows.root]
    exact shows.rootless
  · intro b vb present
    rw [stands] at present
    rw [own present]
    exact shows.branch_eq present
  · intro b vb present
    rw [stands] at present
    exact (shows.cell_lt present).trans_le keeps.vnext
  · intro b indexed
    rw [keeps.mine]
    exact shows.alone indexed
  · intro index b vb present
    rw [stands] at present
    rw [vbranchIndexGet, keeps.view]
    exact shows.listed index present
  · intro index k vb found
    rw [vbranchIndexGet, keeps.view] at found
    rw [stands]
    apply (shows.index_spec index found).imp_right
    rintro ⟨allowed, left⟩
    refine ⟨allowed, left.view, left.cell.trans_le keeps.vnext, ?_, ?_, ?_, ?_⟩
    · rw [keeps.vmem vb left.view]
      exact left.allocated
    · rw [keeps.vmem vb left.view]
      exact left.gone
    · rw [keeps.vmem vb left.view]
      exact left.bare
    · rw [vchildren, keeps.vmem vb left.view]
      exact left.folded
  · intro order b vb present
    rw [stands] at present ⊢
    rw [vchildren, own present]
    exact shows.sorted order present

/-- A change of links is judged by the shadow it leaves. -/
theorem relink (shows : Shows want t o v tops) (alike : Alike o o')
    (shadow : Shadow t.parent tops' (stand t o v) o'.vparent o'.vchildren)
    (root_top : t.branch ∈ tops') (rootless : o'.vparent (o.views v).vbranch = none)
    (rest : ∀ vb, (∀ b, stand t o v b ≠ some vb) → o'.vchildren vb = o.vchildren vb)
    (sorted : want.order → ∀ {b vb}, stand t o v b = some vb →
      (o'.vchildren vb).Sublist ((t.children b).filterMap (stand t o v))) :
    Shows want t o' v tops' := by
  have stands := alike.stand t v
  refine ⟨?_, ?_, root_top, ?_, ?_, ?_, ?_, ?_, ?_, ?_⟩
  · rw [stands]
    exact shadow
  · rw [stands, alike.views]
    exact shows.root
  · rw [alike.views]
    exact rootless
  · intro b vb present
    rw [stands] at present
    rw [alike.branch]
    exact shows.branch_eq present
  · intro b vb present
    rw [stands] at present
    rw [alike.vnext]
    exact shows.cell_lt present
  · intro b indexed
    rw [alike.mine]
    exact shows.alone indexed
  · intro index b vb present
    rw [stands] at present
    rw [vbranchIndexGet, alike.views]
    exact shows.listed index present
  · intro index k vb found
    rw [vbranchIndexGet, alike.views] at found
    rw [stands]
    apply (shows.index_spec index found).imp_right
    rintro ⟨allowed, left⟩
    have absent : ∀ b, stand t o v b ≠ some vb := by
      intro b present
      apply left.gone
      rw [shows.branch_eq present]
      exact (stand_eq_some.mp present).1
    refine ⟨allowed, left.view, ?_, ?_, ?_, ?_, ?_⟩
    · rw [alike.vnext]
      exact left.cell
    · rw [alike.branch]
      exact left.allocated
    · rw [alike.branch]
      exact left.gone
    · rw [alike.branch]
      exact left.bare
    · rw [rest vb absent]
      exact left.folded
  · rw [stands]
    exact sorted

/-- Marks do not count. -/
theorem remark (shows : Shows want t o v tops) (alike : Alike o o')
    (ups : ∀ vb, o'.vparent vb = o.vparent vb) (downs : ∀ vb, o'.vchildren vb = o.vchildren vb) :
    Shows want t o' v tops := by
  apply shows.relink alike _ shows.root_top
  · rw [ups]
    exact shows.rootless
  · exact fun vb _ => downs vb
  · intro order b vb present
    rw [downs]
    exact shows.sorted order present
  · exact shows.shadow.congr_links (fun _ x _ => ups x) fun _ x _ => downs x

theorem push (shows : Shows want t o v tops) (msg : Message) :
    Shows want t (o.push msg) v tops :=
  shows.remark (relinks_push o v msg).toAlike (fun _ => rfl) fun _ => rfl

/-- A vbranch takes those of all shown children of its branch into its list. -/
theorem adopt (shows : Shows want t o v tops) (wf : t.WellFormed) (present : stand t o v a = some x)
    (members : ∀ y, y ∈ list ↔ ∃ c, t.parent c = some a ∧ stand t o v c = some y)
    (nodup : list.Nodup) (relinks : Relinks v o o')
    (downs : ∀ y, o'.vchildren y = if y = x then list else o.vchildren y)
    (ups : ∀ y, o'.vparent y = if y ∈ list then some x else o.vparent y)
    (rest : ∀ b, b ∈ tops' ↔ b ∈ tops ∧ t.parent b ≠ some a)
    (inOrder : want.order → list.Sublist ((t.children a).filterMap (stand t o v))) :
    Shows want t o' v tops' := by
  have rootParent : t.parent t.branch ≠ some a := by
    rw [wf.root_parent]
    simp
  apply shows.relink relinks.toAlike (shows.shadow.adopt present members nodup downs ups rest)
  · rw [rest]
    exact ⟨shows.root_top, rootParent⟩
  · rw [ups, if_neg, shows.rootless]
    intro member
    rcases (members _).mp member with ⟨c, step, there⟩
    rw [shows.shadow.inj there shows.root] at step
    exact rootParent step
  · intro vb absent
    rw [downs, if_neg]
    rintro rfl
    exact absent a present
  · intro order b vb there
    rw [downs]
    split
    · rename_i here
      rw [here] at there
      rw [shows.shadow.inj there present]
      exact inOrder order
    · exact shows.sorted order there

/-- The list of a vbranch holds those of the shown children. -/
theorem vchildren_perm (shows : Shows want t o v {t.branch}) (wf : t.WellFormed)
    (present : stand t o v a = some x) :
    (o.vchildren x).Perm ((t.children a).filterMap (stand t o v)) := by
  have nodup : ((t.children a).filterMap (stand t o v)).Nodup := by
    apply (wf.mirrors.nodup a).filterMap
    intro b c y there there'
    exact shows.shadow.inj there there'
  apply (List.perm_ext_iff_of_nodup (shows.shadow.nodup present) nodup).mpr
  intro y
  rw [shows.shadow.mem_down present, List.mem_filterMap]
  constructor
  · rintro ⟨c, child, _, there⟩
    exact ⟨c, wf.mirrors.mem_iff.mpr child, there⟩
  · rintro ⟨c, member, there⟩
    have child := wf.mirrors.mem_iff.mp member
    refine ⟨c, child, ?_, there⟩
    exact wf.ne_root child

/-- A list in order is that of the shown children. -/
theorem vchildren_eq (shows : Shows want t o v {t.branch}) (order : want.order) (wf : t.WellFormed)
    (present : stand t o v a = some x) :
    o.vchildren x = (t.children a).filterMap (stand t o v) :=
  (shows.sorted order present).eq_of_length (shows.vchildren_perm wf present).length_eq

/-- The list of a vbranch is no longer than that of its branch. -/
theorem down_length_le (shows : Shows want t o v tops) (wf : t.WellFormed)
    (present : stand t o v a = some x) : (o.vchildren x).length ≤ (t.children a).length := by
  have nodup : ((o.vchildren x).map fun y => (o.vmem y).branch).Nodup := by
    apply List.Nodup.map_on _ (shows.shadow.nodup present)
    intro y memberY z memberZ same
    rcases (shows.shadow.mem_down present).mp memberY with ⟨b, _, _, thereY⟩
    rcases (shows.shadow.mem_down present).mp memberZ with ⟨c, _, _, thereZ⟩
    rw [shows.branch_eq thereY, shows.branch_eq thereZ] at same
    rw [same, thereZ, Option.some.injEq] at thereY
    exact thereY.symm
  have sub : ((o.vchildren x).map fun y => (o.vmem y).branch) ⊆ t.children a := by
    intro b member
    rcases List.mem_map.mp member with ⟨y, memberY, rfl⟩
    rcases (shows.shadow.mem_down present).mp memberY with ⟨c, step, _, there⟩
    rw [shows.branch_eq there]
    exact wf.mirrors.mem_iff.mpr step
  simpa using (nodup.subperm sub).length_le

/-- A change of the tree is judged by the shadow it leaves. -/
theorem retree (shows : Shows want t o v tops) (sameRoot : t'.branch = t.branch)
    (shadow : Shadow t'.parent tops' (stand t' o v) o.vparent o.vchildren)
    (root_top : t.branch ∈ tops') (root : stand t' o v t.branch = stand t o v t.branch)
    (fewer : ∀ b vb, stand t' o v b = some vb → stand t o v b = some vb ∧ (t'.mem b).id = (t.mem b).id)
    (alone : ∀ b, t'.Indexed b → (o.mine v b).length ≤ 1)
    (lost : want.index → ∀ b vb, stand t o v b = some vb →
      stand t' o v b = some vb ∨ want.stale ∧ Stale t' o v vb)
    (left : ∀ vb, Stale t o v vb → Stale t' o v vb)
    (sorted : want.order → ∀ b vb, stand t' o v b = some vb →
      (o.vchildren vb).Sublist ((t'.children b).filterMap (stand t' o v))) :
    Shows want t' o v tops' := by
  refine ⟨shadow, ?_, ?_, shows.rootless, ?_, ?_, ?_, ?_, ?_, fun order => sorted order _ _⟩
  · rw [sameRoot, root]
    exact shows.root
  · rw [sameRoot]
    exact root_top
  · exact fun present => shows.branch_eq (fewer _ _ present).1
  · exact fun present => shows.cell_lt (fewer _ _ present).1
  · exact fun indexed => alone _ indexed
  · intro index b vb present
    rcases fewer b vb present with ⟨before, sameId⟩
    rw [sameId]
    exact shows.listed index before
  · intro index k vb found
    rcases shows.index_spec index found with ⟨b, present, named⟩ | ⟨allowed, old⟩
    · rcases lost index b vb present with still | gone
      · exact .inl ⟨b, still, (fewer b vb still).2.trans named⟩
      · exact .inr gone
    · exact .inr ⟨allowed, left vb old⟩

end Shows

/-! ## New vbranches -/

section Add

variable {want : Demands} {t : Tree} {o : Overlay} {v w : ViewPtr} {tops : Set BranchPtr}
  {b : BranchPtr}

theorem branchAttachVbranch_eq {vb : VbranchPtr} (attached : (o.vmem vb).branch = b) :
    branchAttachVbranch o b vb =
      { o with vbranchList := Function.update o.vbranchList b (o.vbranchList b ++ [vb]) } := by
  subst attached
  simp only [branchAttachVbranch, Overlay.modify, Function.update_eq_self]

theorem addVbranch_eq (t : Tree) (o : Overlay) (v : ViewPtr) (new : Vbranch) :
    (addVbranch t o v new).1 =
      { vbranchIndexPut t (vbranchNew o v new).1 v ⟨v, o.vnext⟩ with
        vbranchList := Function.update o.vbranchList new.branch
          (o.vbranchList new.branch ++ [⟨v, o.vnext⟩]) } := by
  unfold addVbranch
  apply branchAttachVbranch_eq
  simp [vbranchIndexPut, vbranchNew]

theorem addVbranch_vmem (t : Tree) (o : Overlay) (v : ViewPtr) (new : Vbranch) (x : VbranchPtr) :
    (addVbranch t o v new).1.vmem x = if x = ⟨v, o.vnext⟩ then new else o.vmem x := by
  rw [addVbranch_eq]
  simp only [vbranchIndexPut, vbranchNew, Function.update_apply]

theorem addVbranch_mine (t : Tree) (o : Overlay) (v : ViewPtr) (new : Vbranch) (w : ViewPtr)
    (b : BranchPtr) :
    (addVbranch t o v new).1.mine w b =
      if w = v ∧ b = new.branch then o.mine v b ++ [⟨v, o.vnext⟩] else o.mine w b := by
  rw [addVbranch_eq]
  simp only [mine, Function.update_apply]
  by_cases here : b = new.branch
  · by_cases own : w = v
    · simp [here, own, List.filter_append]
    · simp [here, own, List.filter_append, Ne.symm own]
  · simp [here]

theorem addVbranch_index (t : Tree) (o : Overlay) (v : ViewPtr) (new : Vbranch) (k : UInt64) :
    vbranchIndexGet (addVbranch t o v new).1 v k =
      if k = (t.mem new.branch).id then some ⟨v, o.vnext⟩ else vbranchIndexGet o v k := by
  rw [addVbranch_eq]
  simp [vbranchIndexGet, vbranchIndexPut, vbranchNew, Function.update_apply]

theorem vbranchNew_beside (o : Overlay) (v : ViewPtr) (new : Vbranch) :
    Beside v o (vbranchNew o v new).1 where
  vmem := by
    intro vb other
    apply Function.update_of_ne
    rintro rfl
    exact other rfl
  vnext := Nat.le_succ _
  views := fun _ _ => rfl
  mine := fun _ _ _ => rfl

theorem vbranchIndexPut_beside (t : Tree) (o : Overlay) (v : ViewPtr) (vb : VbranchPtr) :
    Beside v o (vbranchIndexPut t o v vb) where
  vmem := fun _ _ => rfl
  vnext := le_refl _
  views := fun _ other => Function.update_of_ne other _ _
  mine := fun _ _ _ => rfl

theorem branchAttachVbranch_beside (o : Overlay) (b : BranchPtr) (vb : VbranchPtr) :
    Beside vb.view o (branchAttachVbranch o b vb) where
  vmem := by
    intro x other
    apply Function.update_of_ne
    rintro rfl
    exact other rfl
  vnext := le_refl _
  views := fun _ _ => rfl
  mine := by
    intro w c other
    simp only [Overlay.mine, branchAttachVbranch, Function.update_apply]
    split
    · rename_i here
      simp [here, List.filter_append, Ne.symm other]
    · rfl

theorem addVbranch_beside (t : Tree) (o : Overlay) (v : ViewPtr) (new : Vbranch) :
    Beside v o (addVbranch t o v new).1 :=
  ((vbranchNew_beside o v new).trans (vbranchIndexPut_beside t _ v _)).trans
    (branchAttachVbranch_beside _ new.branch ⟨v, o.vnext⟩)

theorem addVbranch_within (o : Overlay) (v : ViewPtr) (new : Vbranch)
    (indexed : t.Indexed new.branch) :
    Within t v o (addVbranch t o v new).1 where
  toBeside := addVbranch_beside t o v new
  view_id := by
    rw [addVbranch_eq]
    simp [vbranchIndexPut, vbranchNew]
  view_root := by
    rw [addVbranch_eq]
    simp [vbranchIndexPut, vbranchNew]
  viewNext := rfl
  viewIndex := rfl
  gone := by
    intro b out
    rw [addVbranch_eq]
    apply Function.update_of_ne
    rintro rfl
    exact out indexed

/-- A vbranch for a branch that is not shown yet becomes a top. -/
theorem Shows.add (shows : Shows want t o v tops) (wf : t.WellFormed) (new : Vbranch)
    (indexed : t.Indexed new.branch) (absent : stand t o v new.branch = none)
    (leaf : new.childList = []) :
    stand t (addVbranch t o v new).1 v =
        Function.update (stand t o v) new.branch (some ⟨v, o.vnext⟩) ∧
      Shows want t (addVbranch t o v new).1 v (Insert.insert new.branch tops) := by
  have within := addVbranch_within o v new indexed
  have stands : stand t (addVbranch t o v new).1 v =
      Function.update (stand t o v) new.branch (some ⟨v, o.vnext⟩) := by
    funext b
    by_cases here : b = new.branch
    · have empty := shows.mine_eq indexed
      rw [absent] at empty
      rw [here, Function.update_self, stand_of_indexed indexed, viewGetVbranch_eq, addVbranch_mine,
        if_pos ⟨rfl, rfl⟩, empty]
      rfl
    · rw [Function.update_of_ne here]
      apply stand_congr Iff.rfl
      rw [addVbranch_mine, if_neg]
      exact fun both => here both.2
  have old : ∀ {b vb}, stand t o v b = some vb →
      (addVbranch t o v new).1.vmem vb = o.vmem vb ∧ b ≠ new.branch := by
    intro b vb present
    constructor
    · rw [addVbranch_vmem, if_neg]
      rintro rfl
      exact (Nat.lt_irrefl _ (shows.cell_lt present)).elim
    · rintro rfl
      rw [absent] at present
      simp at present
  have cases : ∀ {b vb}, stand t (addVbranch t o v new).1 v b = some vb →
      b = new.branch ∧ vb = ⟨v, o.vnext⟩ ∨ b ≠ new.branch ∧ stand t o v b = some vb := by
    intro b vb present
    rw [stands, Function.update_apply] at present
    split at present
    · rename_i here
      exact .inl ⟨here, (Option.some.inj present).symm⟩
    · rename_i other
      exact .inr ⟨other, present⟩
  have rootNe := (old shows.root).2
  refine ⟨stands, ⟨?_, ?_, Set.mem_insert_of_mem _ shows.root_top, ?_, ?_, ?_, ?_, ?_, ?_, ?_⟩⟩
  · rw [stands]
    apply Shadow.hang _ absent
    · intro b present
      exact (Nat.lt_irrefl _ (shows.cell_lt present)).elim
    · simp [vchildren, addVbranch_vmem, leaf]
    · apply shows.shadow.congr_links
      · intro a x present
        rw [vparent, (old present).1, vparent]
      · intro a x present
        rw [vchildren, (old present).1, vchildren]
  · rw [stands, within.view_root, Function.update_of_ne rootNe]
    exact shows.root
  · rw [within.view_root, vparent, (old shows.root).1]
    exact shows.rootless
  · intro b vb present
    rcases cases present with ⟨rfl, rfl⟩ | ⟨_, before⟩
    · rw [addVbranch_vmem, if_pos rfl]
    · rw [(old before).1]
      exact shows.branch_eq before
  · intro b vb present
    rcases cases present with ⟨_, rfl⟩ | ⟨_, before⟩
    · rw [addVbranch_eq]
      exact Nat.lt_succ_self _
    · exact (shows.cell_lt before).trans_le within.vnext
  · intro b known
    rw [addVbranch_mine]
    split
    · rename_i here
      rw [here.2, shows.mine_eq indexed, absent]
      simp
    · exact shows.alone known
  · intro index b vb present
    rw [addVbranch_index]
    rcases cases present with ⟨rfl, rfl⟩ | ⟨other, before⟩
    · rw [if_pos rfl]
    · rw [if_neg, shows.listed index before]
      intro sameId
      exact other (wf.id_injective (stand_eq_some.mp before).1 indexed sameId)
  · intro index k vb found
    rw [addVbranch_index] at found
    split at found
    · rename_i named
      left
      rw [← Option.some.inj found, stands]
      exact ⟨new.branch, Function.update_self .., named.symm⟩
    · rcases shows.index_spec index found with ⟨b, present, named⟩ | ⟨allowed, left⟩
      · refine .inl ⟨b, ?_, named⟩
        rw [stands, Function.update_of_ne (old present).2]
        exact present
      · have sameCell : (addVbranch t o v new).1.vmem vb = o.vmem vb := by
          rw [addVbranch_vmem, if_neg]
          rintro rfl
          exact Nat.lt_irrefl _ left.cell
        refine .inr ⟨allowed, left.view, left.cell.trans_le within.vnext, ?_, ?_, ?_, ?_⟩
        · rw [sameCell]
          exact left.allocated
        · rw [sameCell]
          exact left.gone
        · rw [sameCell]
          exact left.bare
        · rw [vchildren, sameCell]
          exact left.folded
  · intro order b vb present
    rcases cases present with ⟨rfl, rfl⟩ | ⟨_, before⟩
    · rw [vchildren, addVbranch_vmem, if_pos rfl, leaf]
      exact List.nil_sublist _
    · rw [vchildren, (old before).1]
      apply (shows.sorted order before).trans
      apply filterMap_sublist_of_kept
      intro c y there
      rw [stands, Function.update_of_ne (old there).2, there]

end Add

end Treedb
