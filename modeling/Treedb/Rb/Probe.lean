import Treedb.Rb.Search

/-!
# Insertion (`rb_probe`, `rb_insert`, `rb_replace`)

The stack of the code follows a path of the tree, and each round of the loop is one step of
`settle`. The state between two steps is `Zipped`; a step touches cells of the tree only.
-/

namespace Treedb

open RedBlack (Color Frame)
open RedBlack.Tree (recolor rotate settle plug inorder_plug_congr inorder_rotate inorder_recolor
  link_flip color_link)
open RedBlack (lookup lookup_eq_none lookup_insert lookup_replace)
open Outcome

variable {α : Type} {t : RbTable α} {p g : Frame (NodePtr × α)} {path : RbPath α} {focus : RbTree α}

theorem probeRotate_outer (zipped : Zipped t (p :: g :: path) focus) (outer : p.side = g.side) :
    ∃ t', probeRotate t p.item.1 p.side g.item.1 g.side (topEntry path) = .ok t' ∧
      Zipped t' path (rotate p g focus) ∧
        Touches (addresses (plug (p :: g :: path) focus)) t t' := by
  rcases zipped with ⟨root, ⟨hereP, otherP, hereG, otherG, above⟩, below, nodup⟩
  rcases innermost_apart nodup with ⟨pOther, pAbove, pFocus⟩
  rcases second_apart nodup with ⟨gp, gOther, gOtherG, gPath, gFocus⟩
  have nodup' : (addresses (plug path (rotate p g focus))).Nodup := by
    rwa [addresses_congr (inorder_plug_congr path (inorder_rotate p g focus))]
  have inside := subset_addresses_plug (p :: g :: path) focus
  rcases p with ⟨side, c, ⟨a, x⟩, other⟩
  rcases g with ⟨d, c', ⟨b, y⟩, other'⟩
  subst outer
  simp only [pathAddresses, List.mem_cons, List.mem_append, not_or] at pAbove
  dsimp only at *
  rcases pAbove with ⟨pg, pOtherG, pPath⟩
  have readP := RbTable.node_eq hereP
  have readG := RbTable.node_eq hereG
  simp only [rotate, if_true] at nodup' ⊢
  simp only [probeRotate, RbTable.setColor, RbTable.setLink, RbTable.modify,
    RbTable.node_write_same, RbTable.node_write_ne, ok_bind, pure_eq_ok, if_true, readP, readG, ne_eq,
    not_false_eq_true, pg, gp, links_other, update_links_same, update_links_other]
  refine setLinkAt_topEntry (q := some b) ?_ ?_ ?_ ?_ ?_ nodup' (rootPtr_link _ _ _ _ _)
  · repeat' first | exact Touches.refl _ _ | apply Touches.write
    all_goals
      apply inside
      simp [pathAddresses]
  · exact fun _ member => inside (by simp [pathAddresses, member])
  · exact root
  · simp [RbTable.mem_write, storedPath_update, *]
  · simp [RbTable.mem_write, stored_link, stored_update, *]

theorem probeRotate_inner {c : Color} {l r : RbTree α} {x : NodePtr × α}
    (zipped : Zipped t (p :: g :: path) (.node c l x r)) (inner : p.side = !g.side)
    (red : p.color = .red) :
    ∃ t', probeRotate t p.item.1 p.side g.item.1 g.side (topEntry path) = .ok t' ∧
      Zipped t' path (rotate p g (.node c l x r)) ∧
        Touches (addresses (plug (p :: g :: path) (.node c l x r))) t t' := by
  rcases zipped with ⟨root, ⟨hereP, otherP, hereG, otherG, above⟩, below, nodup⟩
  have nodup' : (addresses (plug path (rotate p g (.node c l x r)))).Nodup := by
    rwa [addresses_congr (inorder_plug_congr path (inorder_rotate p g _))]
  rcases p with ⟨side, c₁, ⟨a, y⟩, other⟩
  rcases g with ⟨d, c₂, ⟨b, z⟩, other'⟩
  rcases x with ⟨e, x⟩
  dsimp only at inner red hereP otherP hereG otherG above
  subst inner red
  have flipped : (!d) ≠ d := by cases d <;> decide
  -- The node in the focus is opened on the side of `g`.
  have opened := RedBlack.Tree.node_eq_link d c l (e, x) r
  simp only [rotate, if_neg flipped] at nodup' ⊢
  generalize (RedBlack.Tree.node c l (e, x) r).child d = near at opened nodup' ⊢
  generalize (RedBlack.Tree.node c l (e, x) r).child (!d) = far at opened nodup' ⊢
  rw [opened] at below hereP nodup ⊢
  clear opened
  rcases innermost_apart nodup with ⟨pOther, pAbove, pFocus⟩
  rcases second_apart nodup with ⟨gp, gOther, gOtherG, gPath, gFocus⟩
  have nodup₃ : (addresses (plug (⟨d, c, (e, x), far⟩ :: ⟨!d, .red, (a, y), other⟩ ::
    ⟨d, c₂, (b, z), other'⟩ :: path) near)).Nodup := nodup
  rcases innermost_apart nodup₃ with ⟨eFar, eAbove, eNear⟩
  have inside := subset_addresses_plug (⟨d, c, (e, x), far⟩ :: ⟨!d, .red, (a, y), other⟩ ::
    ⟨d, c₂, (b, z), other'⟩ :: path) near
  rw [stored_link] at below
  rw [rootPtr_link] at hereP
  simp only [pathAddresses, mem_addresses_link, List.mem_cons, List.mem_append, not_or]
    at pAbove pFocus gFocus eAbove
  rcases below with ⟨hereE, storedNear, storedFar⟩
  rcases pAbove with ⟨pg, pOtherG, pPath⟩
  rcases pFocus with ⟨pe, pNear, pFar⟩
  rcases gFocus with ⟨ge, gNear, gFar⟩
  rcases eAbove with ⟨ep, eOther, eg, eOtherG, ePath⟩
  have readP := RbTable.node_eq hereP
  have readG := RbTable.node_eq hereG
  have readE := RbTable.node_eq hereE
  dsimp only at *
  simp only [probeRotate, RbTable.setColor, RbTable.setLink, RbTable.modify,
    RbTable.node_write_same, RbTable.node_write_ne, ok_bind, pure_eq_ok, if_neg flipped, readP, readG,
    readE, deref, ne_eq, not_false_eq_true, pg, gp, ep, ge, eg, links_same, links_other,
    update_links_same, update_links_other, links_flip]
  refine setLinkAt_topEntry (q := some b) ?_ ?_ ?_ ?_ ?_ nodup' (rootPtr_link _ _ _ _ _)
  · repeat' first | exact Touches.refl _ _ | apply Touches.write
    all_goals
      apply inside
      simp [pathAddresses]
  · exact fun _ member => inside (by simp [pathAddresses, member])
  · exact root
  · simp [RbTable.mem_write, storedPath_update, *]
  · simp [RbTable.mem_write, stored_link, stored_update, *]

/-- The rotations of the code are those of the tree. -/
theorem probeRotate_spec (zipped : Zipped t (p :: g :: path) focus) (red : p.color = .red)
    (red' : focus.color = .red) :
    ∃ t', probeRotate t p.item.1 p.side g.item.1 g.side (topEntry path) = .ok t' ∧
      Zipped t' path (rotate p g focus) ∧
        Touches (addresses (plug (p :: g :: path) focus)) t t' := by
  by_cases outer : p.side = g.side
  · exact probeRotate_outer zipped outer
  · cases focus with
    | nil => cases red'
    | node c l x r => exact probeRotate_inner zipped (Bool.eq_not.mpr outer) red

/-- The state after both children of `g` were painted black, and `g` red. -/
theorem recolored {c c' c₁ : Color} {a b e : NodePtr} {x y z : α} {other l r : RbTree α} {d d' : Bool}
    (zipped : Zipped t (⟨d, c, (a, x), other⟩ :: ⟨d', c', (b, y), .node c₁ l (e, z) r⟩ :: path) focus) :
    ∃ t', (do
        let t ← t.setColor a .black
        let t ← t.setColor e .black
        t.setColor b .red) = Except.ok t' ∧
      Zipped t' path (recolor ⟨d, c, (a, x), other⟩ ⟨d', c', (b, y), .node c₁ l (e, z) r⟩ focus) ∧
      Touches (addresses (plug
        (⟨d, c, (a, x), other⟩ :: ⟨d', c', (b, y), .node c₁ l (e, z) r⟩ :: path) focus)) t t' := by
  rcases zipped with ⟨root, ⟨hereP, otherP, hereG, otherG, above⟩, below, nodup⟩
  rcases otherG with ⟨hereE, storedL, storedR⟩
  have inside := subset_addresses_plug
    (⟨d, c, (a, x), other⟩ :: ⟨d', c', (b, y), .node c₁ l (e, z) r⟩ :: path) focus
  have nodup' : (addresses (plug path
      (recolor ⟨d, c, (a, x), other⟩ ⟨d', c', (b, y), .node c₁ l (e, z) r⟩ focus))).Nodup := by
    rwa [addresses_congr (inorder_plug_congr path (inorder_recolor _ _ _))]
  -- The uncle is the focus of another path through `g`.
  have nodup₂ : (addresses (plug (⟨false, c₁, (e, z), r⟩ ::
      ⟨!d', c', (b, y), .link d c focus (a, x) other⟩ :: path) l)).Nodup := by
    simpa [Frame.plug, link_flip] using nodup
  rcases innermost_apart nodup with ⟨pOther, pAbove, pFocus⟩
  rcases second_apart nodup with ⟨gp, gOther, -, gPath, gFocus⟩
  rcases innermost_apart nodup₂ with ⟨eRight, eAbove, eLeft⟩
  rcases second_apart nodup₂ with ⟨ge, gRight, -, -, gLeft⟩
  simp only [pathAddresses, mem_addresses_node, mem_addresses_link, List.mem_cons, List.mem_append,
    not_or] at pAbove eAbove
  rcases pAbove with ⟨pg, ⟨pe, pLeft, pRight⟩, pPath⟩
  rcases eAbove with ⟨eg, ⟨ep, eFocus, eOther⟩, ePath⟩
  have readP := RbTable.node_eq hereP
  have readG := RbTable.node_eq hereG
  have readE := RbTable.node_eq hereE
  dsimp only at *
  simp only [RbTable.setColor, RbTable.modify, RbTable.node_write_ne, ok_bind, pure_eq_ok, readP,
    readG, readE, ne_eq, not_false_eq_true, gp, ep, ge]
  refine ⟨_, rfl, ⟨?_, ?_, ?_, nodup'⟩, ?_⟩
  · rw [recolor, rootPtr_link]
    exact root
  · simp [recolor, RbTable.mem_write, storedPath_update, *]
  · simp [recolor, RedBlack.Tree.blacken, Stored, RbTable.mem_write, stored_link, stored_update,
      *]
  · repeat' first | exact Touches.refl _ _ | apply Touches.write
    all_goals
      apply inside
      simp [pathAddresses, mem_addresses_node]

/-- A round of the loop looks at two nodes of the path and at the uncle. -/
theorem probeLoop_round (above : StoredPath t.mem (p :: g :: path) (rootPtr focus)) :
    probeLoop t (stackOf (p :: g :: path)) =
      if p.color = .red then
        if g.other.color = .red then do
          let t ← t.setColor p.item.1 .black
          let t ← t.setColor (← deref (rootPtr g.other)) .black
          let t ← t.setColor g.item.1 .red
          probeLoop t (stackOf path)
        else probeRotate t p.item.1 p.side g.item.1 g.side (topEntry path)
      else .ok t := by
  rcases above with ⟨hereP, -, hereG, otherG, -⟩
  rcases stackOf_eq path with ⟨below, stack⟩
  rw [stackOf, stackOf, stack, topEntry, topEntry, probeLoop]
  simp only [Place.ptr, ok_bind, pure_eq_ok, RbTable.node_eq hereP, RbTable.node_eq hereG, links_other,
    isRed_rootPtr otherG, decide_eq_true_eq]

/-- The loop of `rb_probe` settles the new node. -/
theorem probeLoop_spec (zipped : Zipped t path focus) (red : focus.color = .red) :
    ∃ t', probeLoop t (stackOf path) = .ok t' ∧ Zipped t' [] (settle path focus) ∧
      Touches (addresses (plug path focus)) t t' := by
  induction path, focus using RedBlack.Tree.settle.induct generalizing t with
  | case1 p g path focus redP redU ih =>
      rcases p with ⟨d, c, ⟨a, x⟩, other⟩
      rcases g with ⟨d', c', ⟨b, y⟩, _ | ⟨c₁, l, ⟨e, z⟩, r⟩⟩
      · cases redU
      · rcases recolored zipped with ⟨t', painted, zipped', touches⟩
        rcases ih zipped' (color_link _ _ _ _ _) with ⟨t'', rest, zipped'', touches'⟩
        rw [addresses_congr (inorder_plug_congr path (inorder_recolor _ _ _))] at touches'
        refine ⟨t'', ?_, ?_, touches.trans touches'⟩
        · rw [probeLoop_round zipped.above, if_pos redP, if_pos redU, ← rest]
          simp only [rootPtr_node, deref, ok_bind]
          rcases bind_eq_ok.mp painted with ⟨t₁, first, painted⟩
          rcases bind_eq_ok.mp painted with ⟨t₂, second, third⟩
          simp only [first, second, third, ok_bind]
        · rw [settle, if_pos redP, if_pos redU]
          exact zipped''
  | case2 p g path focus redP blackU =>
      rcases probeRotate_spec zipped redP red with ⟨t', rotated, zipped', touches⟩
      refine ⟨t', ?_, ?_, touches⟩
      · rw [probeLoop_round zipped.above, if_pos redP, if_neg blackU, rotated]
      · rw [settle, if_pos redP, if_neg blackU]
        exact zipped'.closed
  | case3 p g path focus blackP =>
      refine ⟨t, ?_, ?_, Touches.refl _ _⟩
      · rw [probeLoop_round zipped.above, if_neg blackP]
      · rw [settle, if_neg blackP]
        exact zipped.closed
  | case4 p focus => exact ⟨t, rfl, zipped.closed, Touches.refl _ _⟩
  | case5 focus => exact ⟨t, rfl, zipped, Touches.refl _ _⟩

/-! ## The whole function -/

section Probe

variable {κ : Type} [LinearOrder κ] {compare : α → α → ℤ} {key : α → κ} {item : α} {u : RbTree α}

theorem probeDescend_spec (compares : Compares compare key) (stored : Stored t.mem focus)
    (room : path.length + focus.height < rbMaxHeight) {fuel : ℕ} (enough : focus.height ≤ fuel) :
    probeDescend compare t item fuel (stackOf path) (rootPtr focus) =
      .ok (stackOf (RedBlack.Tree.seek (nodeKey key) (key item) focus path).1,
        rootPtr (RedBlack.Tree.seek (nodeKey key) (key item) focus path).2) := by
  induction focus generalizing path fuel with
  | nil => simp [probeDescend, rootPtr, RedBlack.Tree.seek]
  | node c l x r ihLeft ihRight =>
      rcases stored with ⟨here, left, right⟩
      rw [RedBlack.Tree.height] at room enough
      rcases fuel with _ | fuel
      · omega
      rw [rootPtr, probeDescend, RbTable.node_eq here, RedBlack.Tree.seek]
      have push : ∀ e, pushed (stackOf path) e = .ok (e :: stackOf path) := by
        intro e
        rw [pushed, if_pos]
        rw [length_stackOf]
        omega
      simp only [ok_bind, push, pure_eq_ok]
      rcases lt_trichotomy (key item) (key x.2) with below | same | above
      · have nonzero : compare item x.2 ≠ 0 := (compares.zero _ _).not.mpr below.ne
        have side : decide (compare item x.2 > 0) = false :=
          decide_eq_false ((compares.pos _ _).not.mpr below.asymm)
        rw [if_neg nonzero, side, if_pos below]
        have step : (⟨false, c, x, r⟩ :: path).length + l.height < rbMaxHeight := by
          rw [List.length_cons]
          omega
        exact ihLeft left step (by omega)
      · rw [if_pos ((compares.zero _ _).mpr same), if_neg same.not_lt, if_neg same.not_gt, rootPtr]
      · have nonzero : compare item x.2 ≠ 0 := (compares.zero _ _).not.mpr above.ne'
        have side : decide (compare item x.2 > 0) = true :=
          decide_eq_true ((compares.pos _ _).mpr above)
        rw [if_neg nonzero, side, if_neg above.asymm, if_pos above]
        have step : (⟨true, c, x, l⟩ :: path).length + r.height < rbMaxHeight := by
          rw [List.length_cons]
          omega
        exact ihRight right step (by omega)

theorem setColor_root (zipped : Zipped t [] u) (some : u ≠ .nil) :
    ∃ t', (do
        let root ← deref t.root
        t.setColor root .black) = Except.ok t' ∧
      Zipped t' [] u.blacken ∧ Touches (addresses u) t t' := by
  cases u with
  | nil => exact absurd rfl some
  | node c l x r =>
      have root := zipped.root
      rw [topPtr, rootPtr_node] at root
      rcases setColor_focus zipped .black with ⟨t', painted, zipped', touches⟩
      refine ⟨t', ?_, zipped', touches⟩
      rw [root, deref, ok_bind, painted]

/-- The new node in its place. -/
theorem alloc_spec (zipped : Zipped t path .nil) (unused : t.next ∉ pathAddresses path) (item : α) :
    ∃ t', (t.alloc ⟨fun _ => none, item, .red⟩).setLinkAt (some t.next) (topEntry path) = .ok t' ∧
      Zipped t' path (.node .red .nil (t.next, item) .nil) ∧
        Touches (addresses (plug path (.node .red .nil (t.next, item) .nil)))
          (t.alloc ⟨fun _ => none, item, .red⟩) t' := by
  have blank : links false none none = fun _ => (none : Option NodePtr) := by
    funext e
    simp [links]
  apply setLinkAt_topEntry (q := none) (Touches.refl _ _) (subset_addresses_plug path _)
  · exact zipped.root
  · exact (storedPath_update unused).mpr zipped.above
  · refine ⟨?_, trivial, trivial⟩
    simp [RbTable.alloc, RbTable.mem_write, rootPtr, blank]
  · rw [nodup_addresses_plug]
    have nodup := nodup_addresses_plug.mp zipped.nodup
    simp only [addresses, RedBlack.Tree.inorder, List.map_nil, List.append_nil] at nodup
    simpa [addresses, RedBlack.Tree.inorder, List.nodup_append, nodup] using
      fun a member => ne_of_mem_of_not_mem member unused
  · rfl

/-- The tree with a new node in the place that was sought. -/
def grown (t : RbTable α) (path : RbPath α) (item : α) : RbTree α :=
  (settle path (.node .red .nil (t.next, item) .nil)).blacken

theorem inorder_grown (t : RbTable α) (path : RbPath α) (item : α) :
    (grown t path item).inorder =
      RedBlack.Tree.before path ++ (t.next, item) :: RedBlack.Tree.after path := by
  rw [grown, RedBlack.Tree.inorder_blacken, RedBlack.Tree.inorder_settle, RedBlack.Tree.inorder_plug]
  simp [RedBlack.Tree.inorder]

/-- The run of `rb_probe` when no item is equal. -/
theorem rbProbe_grows (compares : Compares compare key) (zipped : Zipped t path .nil)
    (high : (plug path (.nil : RbTree α)).height < rbMaxHeight) (unused : t.next ∉ pathAddresses path)
    (sought : RedBlack.Tree.seek (nodeKey key) (key item) (plug path .nil) [] = (path, .nil)) :
    ∃ t', rbProbe compare t item = .ok (t', t.next) ∧ Zipped t' [] (grown t path item) ∧
      (∀ a, a ∉ addresses (grown t path item) → t'.mem a = t.mem a) ∧
        t'.next = t.next + 1 ∧ t'.count = t.count + 1 := by
  have descend : probeDescend compare t item rbMaxHeight (stackOf []) (rootPtr (plug path .nil)) =
      .ok (stackOf (RedBlack.Tree.seek (nodeKey key) (key item) (plug path .nil) []).1,
        rootPtr (RedBlack.Tree.seek (nodeKey key) (key item) (plug path .nil) []).2) :=
    probeDescend_spec compares zipped.closed.below (by simpa using high) high.le
  rw [sought, rootPtr_plug, ← zipped.root] at descend
  rcases alloc_spec zipped unused item with ⟨t₁, linked, zipped₁, touches₁⟩
  have counted : Zipped { t₁ with count := t₁.count + 1, generation := t₁.generation + 1 } path
      (.node .red .nil (t.next, item) .nil) :=
    ⟨zipped₁.root, zipped₁.above, zipped₁.below, zipped₁.nodup⟩
  rcases probeLoop_spec counted rfl with ⟨t₂, settled, zipped₂, touches₂⟩
  have some : settle path (.node .red .nil (t.next, item) .nil) ≠ .nil := by
    rw [ne_eq, ← RedBlack.Tree.inorder_eq_nil, RedBlack.Tree.inorder_settle,
      RedBlack.Tree.inorder_plug]
    simp [RedBlack.Tree.inorder]
  rcases setColor_root zipped₂ some with ⟨t₃, painted, zipped₃, touches₃⟩
  have same : addresses (settle path (.node .red .nil (t.next, item) .nil)) =
      addresses (plug path (.node .red .nil (t.next, item) .nil)) :=
    addresses_congr (RedBlack.Tree.inorder_settle _ _)
  have same' : addresses (grown t path item) =
      addresses (plug path (.node .red .nil (t.next, item) .nil)) := by
    rw [← same]
    exact addresses_congr (RedBlack.Tree.inorder_blacken _)
  rw [same] at touches₃
  refine ⟨t₃, ?_, zipped₃, ?_, ?_, ?_⟩
  · rcases stackOf_eq path with ⟨rest, stack⟩
    rcases bind_eq_ok.mp painted with ⟨root, top, paint⟩
    change (probeDescend compare t item rbMaxHeight (stackOf ([] : RbPath α)) t.root >>= _) = _
    rw [descend, ok_bind]
    rw [stack] at settled ⊢
    simp only [rootPtr, linked, ok_bind, settled, top, paint, pure_eq_ok]
  · intro a out
    rw [same'] at out
    have apart : a ≠ t.next := by
      rintro rfl
      apply out
      rw [← same', addresses, inorder_grown]
      simp
    rw [touches₃.mem a out, touches₂.mem a out, touches₁.mem a out]
    exact Function.update_of_ne apart _ _
  · rw [touches₃.next, touches₂.next, touches₁.next]
    rfl
  · rw [touches₃.count, touches₂.count, touches₁.count]
    rfl

/-- What inserting a new item does. -/
theorem rbProbe_new (compares : Compares compare key) (represents : Represents key t u)
    (small : t.count + 2 < 2 ^ 25) (absent : lookup key (items u) (key item) = none) :
    ∃ t' u', rbProbe compare t item = .ok (t', t.next) ∧ Represents key t' u' ∧
      (∃ left right, items u = left ++ right ∧ items u' = left ++ item :: right) ∧
      (∃ n, t'.mem t.next = some n ∧ n.data = item) ∧ t'.count = t.count + 1 := by
  rcases represents.seek_cases (key item) with
    ⟨path, sought, whole, below, above, -⟩ | ⟨path, c, l, r, a, y, -, -, -, present⟩
  swap
  · exact nomatch absent.symm.trans present
  subst whole
  have unused : t.next ∉ addresses (plug path .nil) := fun member =>
    lt_irrefl _ (represents.fresh _ member)
  rcases rbProbe_grows compares represents.zipped.opened (represents.height_lt small)
    (fun member => unused (subset_addresses_plug path _ member)) sought with
    ⟨t', run, zipped, rest, next, count⟩
  have old : (plug path (.nil : RbTree α)).inorder =
      RedBlack.Tree.before path ++ RedBlack.Tree.after path := by
    simp [RedBlack.Tree.inorder_plug, RedBlack.Tree.inorder]
  have new := inorder_grown t path item
  have placed : ∀ a, a ∈ addresses (grown t path item) ↔
      a = t.next ∨ a ∈ addresses (plug path .nil) := by
    intro a
    simp only [addresses, new, old, List.map_append, List.map_cons, List.mem_append, List.mem_cons]
    tauto
  have balanced : ∃ n, (grown t path item).Balanced .black n := by
    rcases represents.balanced with ⟨n, balanced⟩
    rcases balanced.of_plug with ⟨c, m, carries, empty⟩
    cases empty
    exact carries.settle (.red .nil .nil)
  refine ⟨t', grown t path item, run, ⟨zipped, ?_, balanced, ?_, ?_, ?_⟩, ?_, ?_, count⟩
  · rw [RedBlack.Tree.Sorted, new]
    have sorted := represents.sorted
    rw [RedBlack.Tree.Sorted, old] at sorted
    exact RedBlack.sorted_insert sorted below above
  · rw [count, represents.count, ← RedBlack.Tree.length_inorder, ← RedBlack.Tree.length_inorder, new, old]
    simp [add_assoc]
  · intro a
    by_cases inside : a ∈ addresses (grown t path item)
    · exact iff_of_true (zipped.below.ne_none inside) inside
    · rw [rest a inside, represents.live]
      refine iff_of_false (fun member => ?_) inside
      exact inside ((placed a).mpr (Or.inr member))
  · intro a member
    rw [next]
    rcases (placed a).mp member with rfl | member
    · exact Nat.lt_succ_self _
    · exact (represents.fresh a member).trans (Nat.lt_succ_self _)
  · refine ⟨(RedBlack.Tree.before path).map Prod.snd, (RedBlack.Tree.after path).map Prod.snd, ?_, ?_⟩
    · rw [items, old, List.map_append]
    · rw [items, new, List.map_append, List.map_cons]
  · have member : (t.next, item) ∈ (grown t path item).inorder := by
      rw [new]
      simp
    exact zipped.below.data member

/-- If there is an equal item, the answer is its node and nothing happens. -/
theorem rbProbe_old (compares : Compares compare key) (represents : Represents key t u)
    (small : t.count + 2 < 2 ^ 25) {y : α} (present : lookup key (items u) (key item) = some y) :
    ∃ (path : RbPath α) (c : Color) (l r : RbTree α) (a : NodePtr),
      rbProbe compare t item = .ok (t, a) ∧ plug path (.node c l (a, y) r) = u ∧ key y = key item := by
  rcases represents.seek_cases (key item) with
    ⟨path, -, -, -, -, absent⟩ | ⟨path, c, l, r, a, x, sought, whole, same, found⟩
  · exact nomatch absent.symm.trans present
  · cases found.symm.trans present
    have high := represents.height_lt small
    have descend : probeDescend compare t item rbMaxHeight (stackOf []) (rootPtr u) =
        .ok (stackOf (RedBlack.Tree.seek (nodeKey key) (key item) u []).1,
          rootPtr (RedBlack.Tree.seek (nodeKey key) (key item) u []).2) :=
      probeDescend_spec compares represents.zipped.below (by simpa using high) high.le
    have root := represents.zipped.root
    rw [topPtr] at root
    rw [sought, ← root] at descend
    refine ⟨path, c, l, r, a, ?_, whole, same⟩
    change (probeDescend compare t item rbMaxHeight (stackOf ([] : RbPath α)) t.root >>= _) = _
    rw [descend, ok_bind]
    rfl

/-- The node at the end of a path, with another item of the same key. -/
theorem Represents.relabel {c : Color} {l r : RbTree α} {a : NodePtr} {y : α}
    (represents : Represents key t (plug path (.node c l (a, y) r))) (same : key item = key y) :
    ∃ t', t.modify a (fun n => { n with data := item }) = .ok t' ∧
      Represents key t' (plug path (.node c l (a, item) r)) ∧ t'.count = t.count := by
  rcases represents.zipped.opened with ⟨root, above, ⟨here, left, right⟩, nodup⟩
  have old : (plug path (.node c l (a, y) r)).inorder =
      (RedBlack.Tree.before path ++ l.inorder) ++ (a, y) :: (r.inorder ++ RedBlack.Tree.after path) := by
    simp [RedBlack.Tree.inorder_plug, RedBlack.Tree.inorder]
  have new : (plug path (.node c l (a, item) r)).inorder =
      (RedBlack.Tree.before path ++ l.inorder) ++
        (a, item) :: (r.inorder ++ RedBlack.Tree.after path) := by
    simp [RedBlack.Tree.inorder_plug, RedBlack.Tree.inorder]
  have placed : addresses (plug path (.node c l (a, item) r)) =
      addresses (plug path (.node c l (a, y) r)) := by
    simp [addresses, old, new]
  have nodup' : (addresses (plug (⟨false, c, (a, y), r⟩ :: path) l)).Nodup := nodup
  rcases innermost_apart nodup' with ⟨outRight, outPath, outLeft⟩
  have zipped : Zipped (t.write a ⟨links false (rootPtr l) (rootPtr r), item, c⟩) path
      (.node c l (a, item) r) := by
    refine ⟨root, (storedPath_update outPath).mpr above, ⟨?_, (stored_update outLeft).mpr left,
      (stored_update outRight).mpr right⟩, ?_⟩
    · simp [RbTable.mem_write]
    · rwa [placed]
  refine ⟨_, ?_, ⟨zipped.closed, ?_, ?_, ?_, ?_, ?_⟩, rfl⟩
  · simp [RbTable.modify, RbTable.node_eq here]
  · have sorted := represents.sorted
    rw [RedBlack.Tree.Sorted, old, ← List.pairwise_map] at sorted
    rw [RedBlack.Tree.Sorted, new, ← List.pairwise_map]
    simpa [nodeKey, same] using sorted
  · rcases represents.balanced with ⟨n, balanced⟩
    rcases balanced.of_plug with ⟨c', m, carries, inner⟩
    exact carries.plug (inner.relabel (a, item))
  · rw [RbTable.write, represents.count, ← RedBlack.Tree.length_inorder,
      ← RedBlack.Tree.length_inorder, old, new]
    simp
  · intro b
    by_cases inside : b ∈ addresses (plug path (.node c l (a, item) r))
    · exact iff_of_true (zipped.closed.below.ne_none inside) inside
    · have apart : b ≠ a := by
        rintro rfl
        apply inside
        rw [addresses, new]
        simp
      rw [RbTable.mem_write, Function.update_of_ne apart, represents.live, placed]
  · rw [placed]
    exact represents.fresh

/-- What `rb_insert` and `rb_replace` find in the place of the item: nothing if it is there already. -/
theorem probed_of_same [DecidableEq α] {a : NodePtr} {n : RbNode α} (here : t.mem a = some n) :
    probed t a item = .ok (if n.data = item then none else some n.data) := by
  rw [probed, RbTable.node_eq here]
  rfl

/-- `rb_insert` adds an item with a new key, and answers the other item of the key if there is one. -/
theorem rbInsert_spec [DecidableEq α] (compares : Compares compare key) (represents : Represents key t u)
    (small : t.count + 2 < 2 ^ 25) :
    ∃ t' u', rbInsert compare t item =
        .ok (t', (lookup key (items u) (key item)).filter (· ≠ item)) ∧ Represents key t' u' ∧
      lookup key (items u') = Function.update (lookup key (items u)) (key item)
        (some ((lookup key (items u) (key item)).getD item)) := by
  cases found : lookup key (items u) (key item) with
  | none =>
      rcases rbProbe_new compares represents small found with
        ⟨t', u', run, represents', ⟨left, right, before, now⟩, ⟨n, here, data⟩, -⟩
      refine ⟨t', u', ?_, represents', ?_⟩
      · rw [rbInsert, run, ok_bind]
        simp [probed_of_same here, data]
      · rw [before, now]
        rw [before] at found
        exact lookup_insert (lookup_eq_none.mp found)
  | some y =>
      rcases rbProbe_old compares represents small found with ⟨path, c, l, r, a, run, whole, same⟩
      subst whole
      have here : t.mem a = some ⟨links false (rootPtr l) (rootPtr r), y, c⟩ :=
        represents.zipped.opened.below.1
      refine ⟨t, _, ?_, represents, ?_⟩
      · simp only [rbInsert, run, ok_bind, probed_of_same here]
        by_cases equal : y = item <;> simp [Option.filter, equal]
      · rw [Option.getD_some, ← found, Function.update_eq_self]

/-- `rb_replace` puts the item in the place of the one with the same key. -/
theorem rbReplace_spec [DecidableEq α] (compares : Compares compare key)
    (represents : Represents key t u) (small : t.count + 2 < 2 ^ 25) :
    ∃ t' u', rbReplace compare t item =
        .ok (t', (lookup key (items u) (key item)).filter (· ≠ item)) ∧ Represents key t' u' ∧
      lookup key (items u') = Function.update (lookup key (items u)) (key item) (some item) := by
  cases found : lookup key (items u) (key item) with
  | none =>
      rcases rbProbe_new compares represents small found with
        ⟨t', u', run, represents', ⟨left, right, before, now⟩, ⟨n, here, data⟩, -⟩
      refine ⟨t', u', ?_, represents', ?_⟩
      · rw [rbReplace, run, ok_bind]
        simp [probed_of_same here, data]
      · rw [before, now]
        rw [before] at found
        exact lookup_insert (lookup_eq_none.mp found)
  | some y =>
      rcases rbProbe_old compares represents small found with ⟨path, c, l, r, a, run, whole, same⟩
      subst whole
      have here : t.mem a = some ⟨links false (rootPtr l) (rootPtr r), y, c⟩ :=
        represents.zipped.opened.below.1
      by_cases equal : y = item
      · subst equal
        refine ⟨t, _, ?_, represents, ?_⟩
        · simp only [rbReplace, run, ok_bind, probed_of_same here]
          simp [Option.filter]
        · rw [← found, Function.update_eq_self]
      · rcases represents.relabel same.symm with ⟨t', written, represents', -⟩
        refine ⟨t', _, ?_, represents', ?_⟩
        · simp only [rbReplace, run, ok_bind, probed_of_same here]
          simp [Option.filter, equal, written]
        · rw [items_plug_node, items_plug_node]
          apply lookup_replace same
          rw [← same]
          apply RedBlack.sorted_others
          rw [← items_plug_node]
          exact represents.sorted_items

end Probe

end Treedb
