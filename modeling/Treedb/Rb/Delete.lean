import Treedb.Rb.Probe

/-!
# Deletion (`rb_delete`)

The node with the item is cut out of the tree. If it has a right child, the next node in order is
moved into its place. Then the loop goes up the stack, and makes up for a missing black node.
-/

namespace Treedb

open RedBlack (Color Frame lookup lookup_eq_none lookup_eq_some lookup_erase)
open RedBlack.Tree (leftmost excise redden borrow turn replenish plug inorder_plug_congr Balanced
  Carries link_flip color_link)
open Outcome

variable {α : Type} {t : RbTable α} {path : RbPath α} {focus : RbTree α}

section Descend

variable {κ : Type} [LinearOrder κ] {compare : α → α → ℤ} {key : α → κ} {item : α}

/-- What the way down of `rb_delete` answers at a place of the tree. -/
def foundAt : RbPath α × RbTree α → Option (RbStack × NodePtr)
  | (_, .nil) => none
  | (path, .node _ _ x _) => some (stackOf path, x.1)

theorem pushed_stackOf (room : path.length < rbMaxHeight) :
    pushed (stackOf path).tail (topEntry path) = .ok (stackOf path) := by
  rcases stackOf_eq path with ⟨rest, stack⟩
  have long := length_stackOf path
  rw [stack] at long ⊢
  rw [List.length_cons] at long
  rw [pushed, List.tail_cons, if_pos (by omega)]

theorem deleteDescend_spec (compares : Compares compare key) (zipped : Zipped t path focus)
    (room : path.length + focus.height < rbMaxHeight) {fuel : ℕ} (enough : focus.height < fuel) :
    deleteDescend compare t item fuel (stackOf path).tail (topEntry path).1 (topEntry path).2 =
      .ok (foundAt (RedBlack.Tree.seek (nodeKey key) (key item) focus path)) := by
  induction focus generalizing path fuel with
  | nil =>
      rcases fuel with _ | fuel
      · omega
      rw [deleteDescend, pushed_stackOf (by omega), ok_bind, zipped.linkAt]
      rfl
  | node c l x r ihLeft ihRight =>
      rw [RedBlack.Tree.height] at room enough
      rcases fuel with _ | fuel
      · omega
      have push : pushed (stackOf path).tail (topEntry path) = .ok (stackOf path) :=
        pushed_stackOf (by omega)
      simp only [deleteDescend, push, zipped.linkAt, rootPtr_node,
        RbTable.node_eq zipped.below.1, ok_bind, RedBlack.Tree.seek]
      rcases lt_trichotomy (key item) (key x.2) with before | same | after
      · have nonzero : compare item x.2 ≠ 0 := (compares.zero _ _).not.mpr before.ne
        have side : decide (compare item x.2 > 0) = false :=
          decide_eq_false ((compares.pos _ _).not.mpr before.asymm)
        rw [if_neg nonzero, side, if_pos before]
        have left : Zipped t (⟨false, c, x, r⟩ :: path) l := Zipped.opened zipped.closed
        have step : (⟨false, c, x, r⟩ :: path).length + l.height < rbMaxHeight := by
          rw [List.length_cons]
          omega
        exact ihLeft left step (by omega)
      · rw [if_pos ((compares.zero _ _).mpr same), if_neg same.not_lt, if_neg same.not_gt]
        rfl
      · have nonzero : compare item x.2 ≠ 0 := (compares.zero _ _).not.mpr after.ne'
        have side : decide (compare item x.2 > 0) = true :=
          decide_eq_true ((compares.pos _ _).mpr after)
        rw [if_neg nonzero, side, if_neg after.asymm, if_pos after]
        have right : Zipped t (⟨true, c, x, l⟩ :: path) r := Zipped.opened zipped.closed
        have step : (⟨true, c, x, l⟩ :: path).length + r.height < rbMaxHeight := by
          rw [List.length_cons]
          omega
        exact ihRight right step (by omega)

end Descend

/-- The way down to the leftmost node below a node with a left child. -/
theorem deleteSpine_spec {h fuel : ℕ} {c c₁ : Color} {l₁ r r₁ : RbTree α} {x x₁ : NodePtr × α}
    {inner : RbPath α} (stored : Stored t.mem (.node c (.node c₁ l₁ x₁ r₁) x r))
    (room : h + inner.length + l₁.height < rbMaxHeight) (enough : l₁.height < fuel) :
    ∃ f rest, (leftmost (.node c₁ l₁ x₁ r₁) c x r inner).1 = f :: rest ∧ f.side = false ∧
      deleteSpine t h fuel (entriesOf inner) x.1 =
        .ok (entriesOf (f :: rest), f.item.1,
          (leftmost (.node c₁ l₁ x₁ r₁) c x r inner).2.2.1.1) := by
  induction l₁ generalizing c x r inner c₁ x₁ r₁ fuel with
  | nil =>
      rcases stored with ⟨here, ⟨here₁, -⟩, -⟩
      rcases fuel with _ | fuel
      · omega
      refine ⟨⟨false, c, x, r⟩, inner, rfl, rfl, ?_⟩
      have free : h + (entriesOf inner).length < rbMaxHeight := by
        rw [entriesOf, List.length_map]
        omega
      rw [deleteSpine, if_pos free]
      simp [RbTable.node_eq here, RbTable.node_eq here₁, deref, links, rootPtr, leftmost, entriesOf]
  | node c₂ l₂ x₂ r₂ ihLeft ihRight =>
      rcases stored with ⟨here, ⟨here₁, rest₁⟩, -⟩
      rw [RedBlack.Tree.height] at room enough
      rcases fuel with _ | fuel
      · omega
      have free : h + (entriesOf inner).length < rbMaxHeight := by
        rw [entriesOf, List.length_map]
        omega
      have room' : h + (⟨false, c, x, r⟩ :: inner).length + l₂.height < rbMaxHeight := by
        rw [List.length_cons]
        omega
      have enough' : l₂.height < fuel := by omega
      rcases ihLeft (c := c₁) ⟨here₁, rest₁⟩ room' enough' with ⟨f, rest, way, side, spine⟩
      refine ⟨f, rest, way, side, ?_⟩
      rw [deleteSpine, if_pos free]
      simp only [RbTable.node_eq here, RbTable.node_eq here₁, deref, links_same, rootPtr_node, ok_bind]
      exact spine

/-- What `deleteUnlink` leaves: the hole, and in the old cell the colour that is missing there. -/
structure Unlinked (t : RbTable α) (path : RbPath α) (c : Color) (l : RbTree α) (x : NodePtr × α)
    (r : RbTree α) (t' : RbTable α) : Prop where
  zipped : Zipped t' (excise path c l r).1 (excise path c l r).2.1
  color : ∃ n, t'.mem x.1 = some n ∧ n.color = (excise path c l r).2.2
  touches : Touches (addresses (plug path (.node c l x r))) t t'

/-- Nothing is added where a node is cut out. -/
theorem nodup_excise {c : Color} {l r : RbTree α} {x : NodePtr × α}
    (nodup : (addresses (plug path (.node c l x r))).Nodup) :
    (addresses (plug (excise path c l r).1 (excise path c l r).2.1)).Nodup := by
  refine List.Nodup.sublist (List.Sublist.map _ ?_) nodup
  rw [RedBlack.Tree.inorder_excise, RedBlack.Tree.inorder_plug, RedBlack.Tree.inorder]
  exact (((List.sublist_cons_self _ _).append_left _).append_left _).append_right _

/-- A node without a right child. -/
theorem deleteUnlink_leaf {c : Color} {l : RbTree α} {x : NodePtr × α}
    (zipped : Zipped t path (.node c l x .nil)) :
    ∃ t', deleteUnlink t (stackOf path) x.1 = .ok (t', stackOf (excise path c l .nil).1) ∧
      Unlinked t path c l x .nil t' := by
  rcases zipped with ⟨root, above, ⟨here, left, -⟩, nodup⟩
  rcases List.nodup_append'.mp (nodup_addresses_plug.mp nodup) with ⟨pathNodup, -, apart⟩
  have inside := subset_addresses_plug path (.node c l x .nil)
  rcases setLinkAt_path root above pathNodup (rootPtr l) with ⟨t', linked, root', above', touches⟩
  have elsewhere : ∀ a ∈ addresses (.node c l x .nil), t'.mem a = t.mem a := fun a member =>
    touches.mem a fun member' => apart member' member
  have zipped' : Zipped t' path l := by
    refine ⟨root', above', left.congr fun a member => elsewhere a ?_, nodup_excise nodup⟩
    exact (mem_addresses_node c l x .nil a).mpr (Or.inr (Or.inl member))
  refine ⟨t', ?_, zipped', ⟨_, (elsewhere x.1 ?_).trans here, rfl⟩, touches.mono inside⟩
  · rcases stackOf_eq path with ⟨rest, stack⟩
    rw [excise, stack]
    simp only [deleteUnlink, RbTable.node_eq here, ok_bind, rootPtr_nil, links_right, links_same,
      pure_eq_ok]
    rw [linked, ok_bind]
  · exact (mem_addresses_node c l x .nil x.1).mpr (Or.inl rfl)

/-- A right child without a left child takes the place of the node. -/
theorem deleteUnlink_child {c c₁ : Color} {l r : RbTree α} {x x₁ : NodePtr × α}
    (zipped : Zipped t path (.node c l x (.node c₁ .nil x₁ r)))
    (room : path.length + 1 < rbMaxHeight) :
    ∃ t', deleteUnlink t (stackOf path) x.1 =
        .ok (t', stackOf (excise path c l (.node c₁ .nil x₁ r)).1) ∧
      Unlinked t path c l x (.node c₁ .nil x₁ r) t' := by
  rcases zipped with ⟨root, above, ⟨here, left, here₁, -, right⟩, nodup⟩
  have nodup₁ : (addresses (plug (⟨true, c₁, x₁, .nil⟩ :: ⟨true, c, x, l⟩ :: path) r)).Nodup := nodup
  rcases innermost_apart nodup₁ with ⟨-, outPath₁, outRight₁⟩
  rcases second_apart nodup₁ with ⟨apart, -, outLeft, outPath, outRight⟩
  simp only [pathAddresses, List.mem_cons, List.mem_append, not_or] at outPath₁
  rcases outPath₁ with ⟨apart', outLeft₁, outPath₁⟩
  dsimp only at apart apart' outLeft outPath outRight outRight₁ outPath₁
  have readP := RbTable.node_eq here
  have readR := RbTable.node_eq here₁
  have aboveW : StoredPath ((t.write x₁.1 ⟨links false (rootPtr l) (rootPtr r), x₁.2, c⟩).write x.1
      ⟨links false (rootPtr l) (some x₁.1), x.2, c₁⟩).mem path (some x.1) :=
    (storedPath_update outPath).mpr ((storedPath_update outPath₁).mpr above)
  rcases List.nodup_append'.mp (nodup_addresses_plug.mp nodup) with ⟨pathNodup, -, beside⟩
  rcases setLinkAt_path (by exact root) aboveW pathNodup (some x₁.1) with
    ⟨t', linked, root', above', touches⟩
  have elsewhere : ∀ a ∈ addresses (.node c l x (.node c₁ .nil x₁ r)), a ≠ x.1 → a ≠ x₁.1 →
      t'.mem a = t.mem a := by
    intro a member ne ne₁
    rw [touches.mem a fun member' => beside member' member, RbTable.mem_write,
      Function.update_of_ne ne, RbTable.mem_write, Function.update_of_ne ne₁]
  have zipped' : Zipped t' (⟨true, c, x₁, l⟩ :: path) r := by
    refine ⟨root', ⟨?_, left.congr fun a member => elsewhere a ?_ ?_ ?_, above'⟩,
      right.congr fun a member => elsewhere a ?_ ?_ ?_, nodup_excise nodup⟩
    · rw [touches.mem _ outPath₁, RbTable.mem_write, Function.update_of_ne apart', RbTable.mem_write,
        Function.update_self, ← Bool.not_false, links_flip]
    · simp [mem_addresses_node, member]
    · exact ne_of_mem_of_not_mem member outLeft
    · exact ne_of_mem_of_not_mem member outLeft₁
    · simp [mem_addresses_node, member]
    · exact ne_of_mem_of_not_mem member outRight
    · exact ne_of_mem_of_not_mem member outRight₁
  refine ⟨t', ?_, zipped', ⟨_, (touches.mem _ outPath).trans (Function.update_self _ _ _), rfl⟩, ?_⟩
  · have push : pushed (stackOf path) (.node x₁.1, true) =
        .ok (stackOf (⟨true, c, x₁, l⟩ :: path)) :=
      @pushed_stackOf α (⟨true, c, x₁, l⟩ :: path) room
    rcases stackOf_eq path with ⟨rest, stack⟩
    rw [stack] at push ⊢
    simp only [deleteUnlink, swapColors, RbTable.setColor, RbTable.setLink, RbTable.modify, readP,
      readR, ok_bind, pure_eq_ok, rootPtr_nil, rootPtr_node, links_right, links_same, update_links_same,
      RbTable.node_write_same, RbTable.node_write_ne, ne_eq, apart, not_false_eq_true,
      RbTable.write_write_same, linked, push]
    rfl
  · refine Touches.trans ?_ (touches.mono (subset_addresses_plug _ _))
    refine ((Touches.refl _ _).write ?_).write ?_ <;> simp [mem_addresses_plug, mem_addresses_node]

/-- The next node in order, at the end of the way `f :: rest` to the left, moves into the place of `x`. -/
theorem deleteUnlink_moves {c cs : Color} {l rs : RbTree α} {x s : NodePtr × α}
    {f : Frame (NodePtr × α)} {rest : RbPath α}
    (zipped : Zipped t (f :: rest ++ ⟨true, c, x, l⟩ :: path) (.node cs .nil s rs))
    (side : f.side = false)
    (nodup' : (addresses (plug (f :: rest ++ ⟨true, c, s, l⟩ :: path) rs)).Nodup) :
    ∃ t', (do
        let t ← t.setLinkAt (some s.1) (topEntry path)
        let t ← t.setLink s.1 false ((← t.node x.1).link false)
        let t ← t.setLink f.item.1 false ((← t.node s.1).link true)
        let t ← t.setLink s.1 true ((← t.node x.1).link true)
        swapColors t s.1 x.1) = Except.ok t' ∧
      Zipped t' (f :: rest ++ ⟨true, c, s, l⟩ :: path) rs ∧
      (∃ n, t'.mem x.1 = some n ∧ n.color = cs) ∧
      Touches (addresses (plug (f :: rest ++ ⟨true, c, x, l⟩ :: path) (.node cs .nil s rs))) t t' := by
  rcases zipped with ⟨root, way, ⟨hereS, -, belowS⟩, nodup⟩
  rcases (storedPath_append (f :: rest) _ _).mp way with ⟨⟨hereF, otherF, aboveF⟩, hereP, left, above⟩
  rw [topPtr_append, topPtr] at root
  -- The three nodes are apart from each other and from the rest of the table.
  have nodupS : (addresses (plug (⟨true, cs, s, .nil⟩ :: (f :: rest ++ ⟨true, c, x, l⟩ :: path))
      rs)).Nodup := nodup
  rcases innermost_apart nodupS with ⟨-, apartS, outS⟩
  rcases innermost_apart nodup with ⟨inF, apartF, outF⟩
  have nodupP : (addresses (plug (⟨true, c, x, l⟩ :: path)
      (plug (f :: rest) (.node cs .nil s rs)))).Nodup := by
    rwa [← RedBlack.Tree.plug_append]
  rcases innermost_apart nodupP with ⟨inP, pathP, outP⟩
  rcases List.nodup_append'.mp (nodup_addresses_plug.mp nodupP) with ⟨pathNodup, -, beside⟩
  rw [pathAddresses, List.nodup_cons, List.nodup_append'] at pathNodup
  rcases pathNodup with ⟨-, -, pathNodup, leftApart⟩
  have wayApart : ∀ a, a ∈ pathAddresses path → a ∉ pathAddresses (f :: rest) ∧ a ∉ addresses rs := by
    intro a member
    have out : a ∉ addresses (plug (f :: rest) (.node cs .nil s rs)) := fun member' =>
      beside (pathAddresses_subset ⟨true, c, x, l⟩ path member) member'
    rw [mem_addresses_plug, mem_addresses_node] at out
    tauto
  replace apartF : f.item.1 ∉ pathAddresses (rest ++ ⟨true, c, x, l⟩ :: path) := apartF
  simp only [pathAddresses_append, pathAddresses, mem_addresses_plug, mem_addresses_node, List.mem_append,
    List.mem_cons, List.mem_append, not_or] at apartS apartF outF outP inP pathP outS wayApart
  rcases apartS with ⟨⟨sf, sOther, sRest⟩, sx, sLeft, sPath⟩
  rcases apartF with ⟨fRest, fx, fLeft, fPath⟩
  rcases outF with ⟨fs, -, fRight⟩
  rcases outP with ⟨⟨xf, xOther, xRest⟩, xs, -, xRight⟩
  rcases f with ⟨d, cf, y, other⟩
  dsimp only at *
  subst side
  rcases setLinkAt_path root above pathNodup (some s.1) with ⟨t₁, linked, root₁, above₁, touches⟩
  rw [← touches.mem _ sPath] at hereS
  rw [← touches.mem _ fPath] at hereF
  rw [← touches.mem _ pathP] at hereP
  have left₁ : Stored t₁.mem l := left.congr fun a member =>
    touches.mem a fun member' => leftApart member member'
  have belowS₁ : Stored t₁.mem rs := belowS.congr fun a member =>
    touches.mem a fun member' => (wayApart a member').2 member
  have otherF₁ : Stored t₁.mem other := otherF.congr fun a member =>
    touches.mem a fun member' => (wayApart a member').1.2.1 member
  have aboveF₁ : StoredPath t₁.mem rest (some y.1) := aboveF.congr fun a member =>
    touches.mem a fun member' => (wayApart a member').1.2.2 member
  have readS := RbTable.node_eq hereS
  have readF := RbTable.node_eq hereF
  have readP := RbTable.node_eq hereP
  simp only [linked, swapColors, RbTable.setColor, RbTable.setLink, RbTable.modify, readP, readS, readF,
    ok_bind, pure_eq_ok, rootPtr_nil, rootPtr_node, links_right, links_same,
    update_links_same, update_links_right, RbTable.node_write_same, RbTable.node_write_ne, ne_eq, sf, fs,
    xf, xs, not_false_eq_true, RbTable.write_write_same]
  refine ⟨_, rfl, ⟨?_, (storedPath_append (_ :: rest) _ _).mpr ⟨?_, ?_⟩, ?_, nodup'⟩,
    ⟨_, Function.update_self _ _ _, rfl⟩, ?_⟩
  · rw [topPtr_append]
    exact root₁
  · simp [StoredPath, RbTable.mem_write, storedPath_update, stored_update, *]
  · simp [StoredPath, RbTable.mem_write, storedPath_update, stored_update, topPtr, *]
    exact (links_flip false _ _).symm
  · simp [RbTable.mem_write, stored_update, *]
  · have inside : ∀ a, a = x.1 ∨ a = y.1 ∨ a = s.1 ∨ a ∈ pathAddresses path →
        a ∈ addresses (plug (⟨false, cf, y, other⟩ :: rest ++ ⟨true, c, x, l⟩ :: path)
          (.node cs .nil s rs)) := by
      intro a member
      rw [mem_addresses_plug, pathAddresses_append, mem_addresses_node]
      simp only [pathAddresses, List.mem_append, List.mem_cons]
      tauto
    refine Touches.write (Touches.write (Touches.write (Touches.write (touches.mono ?_) ?_) ?_) ?_) ?_
    · exact fun a member => inside a (by simp [member])
    all_goals
      apply inside
      simp

/-- The next node in order takes the place of a node whose right child has a left child. -/
theorem deleteUnlink_spine {c c₁ c₂ : Color} {l l₂ r₁ r₂ : RbTree α} {x x₁ x₂ : NodePtr × α}
    (zipped : Zipped t path (.node c l x (.node c₁ (.node c₂ l₂ x₂ r₂) x₁ r₁)))
    (room : path.length + 2 + l₂.height < rbMaxHeight) :
    ∃ t', deleteUnlink t (stackOf path) x.1 =
        .ok (t', stackOf (excise path c l (.node c₁ (.node c₂ l₂ x₂ r₂) x₁ r₁)).1) ∧
      Unlinked t path c l x (.node c₁ (.node c₂ l₂ x₂ r₂) x₁ r₁) t' := by
  have readP := RbTable.node_eq zipped.below.1
  have readR := RbTable.node_eq zipped.below.2.2.1
  have whole := RedBlack.Tree.plug_leftmost (.node c₂ l₂ x₂ r₂) c₁ x₁ r₁ []
  have spine : ∃ f rest, (leftmost (.node c₂ l₂ x₂ r₂) c₁ x₁ r₁ []).1 = f :: rest ∧ f.side = false ∧
      deleteSpine t ((stackOf path).length + 1) rbMaxHeight [] x₁.1 =
        .ok (entriesOf (f :: rest), f.item.1,
          (leftmost (.node c₂ l₂ x₂ r₂) c₁ x₁ r₁ []).2.2.1.1) := by
    apply deleteSpine_spec zipped.below.2.2
    · rw [length_stackOf, List.length_nil]
      omega
    · omega
  have nodup' := nodup_excise zipped.nodup
  rcases spine with ⟨f, rest, way, side, spine⟩
  rw [excise, way] at nodup'
  rw [way] at whole
  have before : Zipped t (f :: rest ++ ⟨true, c, x, l⟩ :: path)
      (.node (leftmost (.node c₂ l₂ x₂ r₂) c₁ x₁ r₁ []).2.1 .nil
        (leftmost (.node c₂ l₂ x₂ r₂) c₁ x₁ r₁ []).2.2.1
        (leftmost (.node c₂ l₂ x₂ r₂) c₁ x₁ r₁ []).2.2.2) := by
    apply Zipped.opened
    rw [RedBlack.Tree.plug_append, whole]
    exact zipped.closed
  rcases deleteUnlink_moves before side nodup' with ⟨t', moved, zipped', color, touches⟩
  refine ⟨t', ?_, ⟨?_, ?_, ?_⟩⟩
  · have finished := congrArg (· >>= fun t => pure (t, entriesOf (f :: rest) ++
      (.node (leftmost (.node c₂ l₂ x₂ r₂) c₁ x₁ r₁ []).2.2.1.1, true) :: stackOf path)) moved
    simp only [bind_assoc, ok_bind] at finished
    rw [excise, way, stackOf_append]
    rcases stackOf_eq path with ⟨rest', stack⟩
    rw [stack] at spine finished ⊢
    simp only [deleteUnlink, readP, readR, ok_bind, rootPtr_node, links_right, links_same, spine]
    rw [stackOf, stack]
    exact finished
  · rw [excise, way]
    exact zipped'
  · exact color
  · rw [RedBlack.Tree.plug_append, whole] at touches
    exact touches

/-- What `rb_delete` unlinks is what is cut out of the tree. -/
theorem deleteUnlink_spec {c : Color} {l r : RbTree α} {x : NodePtr × α}
    (zipped : Zipped t path (.node c l x r))
    (room : path.length + (RedBlack.Tree.node c l x r).height < rbMaxHeight) :
    ∃ t', deleteUnlink t (stackOf path) x.1 = .ok (t', stackOf (excise path c l r).1) ∧
      Unlinked t path c l x r t' := by
  match r with
  | .nil => exact deleteUnlink_leaf zipped
  | .node c₁ .nil x₁ r₁ =>
      apply deleteUnlink_child zipped
      simp only [RedBlack.Tree.height] at room
      omega
  | .node c₁ (.node c₂ l₂ x₂ r₂) x₁ r₁ =>
      apply deleteUnlink_spine zipped
      simp only [RedBlack.Tree.height] at room
      omega

/-! ## The loop -/

variable {d : Bool} {c c₁ : Color} {l r near far : RbTree α} {x w : NodePtr × α}

/-- The sibling is painted red. -/
theorem deleteRedden_spec (zipped : Zipped t (⟨d, c, x, .node c₁ l w r⟩ :: path) focus) :
    ∃ t', t.setColor w.1 .red = .ok t' ∧
      Zipped t' path (redden ⟨d, c, x, .node c₁ l w r⟩ focus) ∧
      Touches (addresses (plug (⟨d, c, x, .node c₁ l w r⟩ :: path) focus)) t t' := by
  rcases setColor_focus zipped.flip .red with ⟨t', painted, zipped', touches⟩
  have flipped := zipped'.flip
  have same : plug (⟨!d, c, x, focus⟩ :: path) (.node c₁ l w r) =
      plug (⟨d, c, x, .node c₁ l w r⟩ :: path) focus := by
    rw [RedBlack.Tree.plug_cons, RedBlack.Tree.plug_cons, Frame.plug, Frame.plug, link_flip]
  rw [Bool.not_not] at flipped
  rw [same] at touches
  exact ⟨t', painted, Zipped.opened flipped.closed, touches⟩

/-- The red sibling is turned up. -/
theorem deleteTurn_spec {y : NodePtr}
    (zipped : Zipped t (⟨d, c, x, .link d .red near w far⟩ :: path) focus)
    (top : rootPtr near = some y) (room : path.length + 2 < rbMaxHeight) :
    ∃ t', deleteTurn t x.1 d w.1 (stackOf path) =
        .ok (t', stackOf (⟨d, .black, w, far⟩ :: path), y) ∧
      Zipped t' (⟨d, .red, x, near⟩ :: ⟨d, .black, w, far⟩ :: path) focus ∧
      Touches (addresses (plug (⟨d, c, x, .link d .red near w far⟩ :: path) focus)) t t' := by
  rcases zipped with ⟨root, ⟨hereP, other, above⟩, below, nodup⟩
  rcases (stored_link _ _ _ _ _).mp other with ⟨hereW, storedNear, storedFar⟩
  have inside := subset_addresses_plug (⟨d, c, x, .link d .red near w far⟩ :: path) focus
  have nodup' : (addresses (plug path
      (.link d .black (.link d .red focus x near) w far))).Nodup := by
    have same : (RedBlack.Tree.link d .black (.link d .red focus x near) w far).inorder =
        (RedBlack.Tree.link d c focus x (.link d .red near w far)).inorder := by
      cases d <;> simp [RedBlack.Tree.inorder]
    rwa [addresses_congr (inorder_plug_congr path same)]
  have nodup₂ : (addresses (plug (⟨d, .red, x, near⟩ :: ⟨d, .black, w, far⟩ :: path) focus)).Nodup :=
    nodup'
  rcases innermost_apart nodup₂ with ⟨pNear, pAbove, pFocus⟩
  rcases second_apart nodup₂ with ⟨wp, wNear, wFar, wPath, wFocus⟩
  simp only [pathAddresses, List.mem_cons, List.mem_append, not_or] at pAbove
  dsimp only at *
  rcases pAbove with ⟨pw, pFar, pPath⟩
  have readP := RbTable.node_eq hereP
  have readW := RbTable.node_eq hereW
  rw [rootPtr_link] at readP
  have push : pushed ((.node w.1, d) :: stackOf path) (.node x.1, d) =
      .ok ((.node x.1, d) :: (.node w.1, d) :: stackOf path) := by
    rw [pushed, if_pos]
    rw [List.length_cons, length_stackOf]
    omega
  have linked : ∃ t', (do
      let t ← t.setColor w.1 .black
      let t ← t.setColor x.1 .red
      let t ← t.setLink x.1 (!d) ((← t.node w.1).link d)
      let t ← t.setLink w.1 d (some x.1)
      t.setLinkAt (some w.1) (topEntry path)) = Except.ok t' ∧
      Zipped t' path (.link d .black (.link d .red focus x near) w far) ∧
      Touches (addresses (plug (⟨d, c, x, .link d .red near w far⟩ :: path) focus)) t t' := by
    simp only [RbTable.setColor, RbTable.setLink, RbTable.modify,
      RbTable.node_write_same, RbTable.node_write_ne, ok_bind, pure_eq_ok, readP, readW, ne_eq,
      not_false_eq_true, wp, pw, links_same, update_links_same, update_links_other]
    refine setLinkAt_topEntry (q := some x.1) ?_ ?_ ?_ ?_ ?_ nodup' (rootPtr_link _ _ _ _ _)
    · repeat' first | exact Touches.refl _ _ | apply Touches.write
      all_goals
        apply inside
        simp [pathAddresses, mem_addresses_link]
    · exact fun _ member => inside (by simp [pathAddresses, member])
    · exact root
    · simp [RbTable.mem_write, storedPath_update, *]
    · simp [RbTable.mem_write, stored_link, stored_update, *]
  rcases linked with ⟨t', linked, zipped', touches⟩
  have opened : Zipped t' (⟨d, .red, x, near⟩ :: ⟨d, .black, w, far⟩ :: path) focus :=
    Zipped.opened zipped'.closed
  refine ⟨t', ?_, opened, touches⟩
  have finished := congrArg (· >>= fun t' => do
    let _ ← pushed ((.node w.1, d) :: stackOf path) (.node x.1, d)
    let y ← deref ((← t'.node x.1).link !d)
    return (t', (.node w.1, d) :: stackOf path, y)) linked
  simp only [bind_assoc, ok_bind] at finished
  rcases stackOf_eq path with ⟨rest, stack⟩
  rw [stackOf, topEntry]
  rw [stack] at finished push ⊢
  refine Eq.trans ?_ (finished.trans ?_)
  · simp only [deleteTurn]
  · simp only [push, RbTable.node_eq opened.above.1, links_other, top, deref, ok_bind, pure_eq_ok]

/-- The sibling has a red child on the far side. -/
theorem deleteRotate_far {z : NodePtr × α}
    (zipped : Zipped t (⟨d, c, x, .link d .black near w (.node .red l z r)⟩ :: path) focus) :
    ∃ t', deleteRotate t x.1 d w.1 (stackOf path) = .ok t' ∧
      Zipped t' path (.link d c (.link d .black focus x near) w (.node .black l z r)) ∧
      Touches (addresses (plug (⟨d, c, x, .link d .black near w (.node .red l z r)⟩ :: path) focus))
        t t' := by
  rcases zipped with ⟨root, ⟨hereP, other, above⟩, below, nodup⟩
  rcases (stored_link _ _ _ _ _).mp other with ⟨hereW, storedNear, hereZ, storedL, storedR⟩
  have inside := subset_addresses_plug
    (⟨d, c, x, .link d .black near w (.node .red l z r)⟩ :: path) focus
  have nodup' : (addresses (plug path
      (.link d c (.link d .black focus x near) w (.node .black l z r)))).Nodup := by
    have same : (RedBlack.Tree.link d c (.link d .black focus x near) w (.node .black l z r)).inorder =
        (RedBlack.Tree.link d c focus x (.link d .black near w (.node .red l z r))).inorder := by
      cases d <;> simp [RedBlack.Tree.inorder]
    rwa [addresses_congr (inorder_plug_congr path same)]
  have nodup₁ : (addresses (plug (⟨d, .black, x, near⟩ ::
      ⟨d, c, w, .node .black l z r⟩ :: path) focus)).Nodup := nodup'
  have nodup₂ : (addresses (plug (⟨false, .black, z, r⟩ ::
      ⟨!d, c, w, .link d .black focus x near⟩ :: path) l)).Nodup := by
    simpa [Frame.plug, link_flip] using nodup'
  rcases innermost_apart nodup₁ with ⟨pNear, pAbove, pFocus⟩
  rcases second_apart nodup₁ with ⟨wp, wNear, wFar, wPath, wFocus⟩
  rcases innermost_apart nodup₂ with ⟨zRight, zAbove, zLeft⟩
  simp only [pathAddresses, mem_addresses_node, mem_addresses_link, List.mem_cons, List.mem_append,
    not_or] at pAbove wFar zAbove
  dsimp only at *
  rcases pAbove with ⟨pw, ⟨pz, pL, pR⟩, pPath⟩
  rcases wFar with ⟨wz, wL, wR⟩
  rcases zAbove with ⟨zw, ⟨zp, zFocus, zNear⟩, zPath⟩
  have readP := RbTable.node_eq hereP
  have readW := RbTable.node_eq hereW
  have readZ := RbTable.node_eq hereZ
  rw [rootPtr_link] at readP
  rcases stackOf_eq path with ⟨rest, stack⟩
  rw [stack]
  simp only [deleteRotate, RbTable.isRed, RbTable.setColor, RbTable.setLink, RbTable.modify, Except.map,
    RbTable.node_write_same, RbTable.node_write_ne, ok_bind, pure_eq_ok, readP, readW, readZ, deref,
    ne_eq, not_false_eq_true, wp, pw, pz, wz, zw, zp, links_same, links_other, update_links_same,
    update_links_other, rootPtr_node, decide_true, if_true]
  refine setLinkAt_topEntry (q := some x.1) ?_ ?_ ?_ ?_ ?_ nodup' (rootPtr_link _ _ _ _ _)
  · repeat' first | exact Touches.refl _ _ | apply Touches.write
    all_goals
      apply inside
      simp [pathAddresses, mem_addresses_node, mem_addresses_link]
  · exact fun _ member => inside (by simp [pathAddresses, member])
  · exact root
  · simp [RbTable.mem_write, storedPath_update, *]
  · simp [RbTable.mem_write, Stored, stored_link, stored_update, *]

/-- The sibling has a red child on the near side only. -/
theorem deleteRotate_near {a b : RbTree α} {y : NodePtr × α}
    (zipped : Zipped t (⟨d, c, x, .link d .black (.link d .red a y b) w far⟩ :: path) focus)
    (black : far.color = .black) :
    ∃ t', deleteRotate t x.1 d w.1 (stackOf path) = .ok t' ∧
      Zipped t' path (.link d c (.link d .black focus x a) y (.link d .black b w far)) ∧
      Touches (addresses (plug (⟨d, c, x, .link d .black (.link d .red a y b) w far⟩ :: path) focus))
        t t' := by
  rcases zipped with ⟨root, ⟨hereP, other, above⟩, below, nodup⟩
  rcases (stored_link _ _ _ _ _).mp other with ⟨hereW, storedNear, storedFar⟩
  rcases (stored_link _ _ _ _ _).mp storedNear with ⟨hereY, storedA, storedB⟩
  have inside := subset_addresses_plug
    (⟨d, c, x, .link d .black (.link d .red a y b) w far⟩ :: path) focus
  have nodup' : (addresses (plug path
      (.link d c (.link d .black focus x a) y (.link d .black b w far)))).Nodup := by
    have same : (RedBlack.Tree.link d c (.link d .black focus x a) y (.link d .black b w far)).inorder =
        (RedBlack.Tree.link d c focus x (.link d .black (.link d .red a y b) w far)).inorder := by
      cases d <;> simp [RedBlack.Tree.inorder]
    rwa [addresses_congr (inorder_plug_congr path same)]
  have nodup₁ : (addresses (plug (⟨d, .black, x, a⟩ ::
      ⟨d, c, y, .link d .black b w far⟩ :: path) focus)).Nodup := nodup'
  have nodup₂ : (addresses (plug (⟨d, .black, w, far⟩ ::
      ⟨!d, c, y, .link d .black focus x a⟩ :: path) b)).Nodup := by
    simpa [Frame.plug, link_flip] using nodup'
  rcases innermost_apart nodup₁ with ⟨pA, pAbove, pFocus⟩
  rcases second_apart nodup₁ with ⟨yp, yA, yFar, yPath, yFocus⟩
  rcases innermost_apart nodup₂ with ⟨wFar, wAbove, wB⟩
  simp only [pathAddresses, mem_addresses_link, List.mem_cons, List.mem_append,
    not_or] at pAbove yFar wAbove
  dsimp only at *
  rcases pAbove with ⟨py, ⟨pw, pB, pFar⟩, pPath⟩
  rcases yFar with ⟨yw, yB, yFar⟩
  rcases wAbove with ⟨wy, ⟨wp, wFocus, wA⟩, wPath⟩
  have readP := RbTable.node_eq hereP
  have readW := RbTable.node_eq hereW
  have readY := RbTable.node_eq hereY
  have dark := isRed_rootPtr storedFar
  rw [rootPtr_link] at readP readW
  rcases stackOf_eq path with ⟨rest, stack⟩
  rw [stack]
  simp only [deleteRotate, RbTable.setColor, RbTable.setLink, RbTable.modify,
    RbTable.node_write_same, RbTable.node_write_ne, ok_bind, pure_eq_ok, readP, readW, readY, dark, black,
    deref, ne_eq, not_false_eq_true, py, pw, yp, yw, wy, wp, links_same, links_other,
    update_links_same, update_links_other, reduceCtorEq, decide_false, Bool.false_eq_true, if_false,
    RbTable.write_write_same]
  refine setLinkAt_topEntry (q := some x.1) ?_ ?_ ?_ ?_ ?_ nodup' (rootPtr_link _ _ _ _ _)
  · repeat' first | exact Touches.refl _ _ | apply Touches.write
    all_goals
      apply inside
      simp [pathAddresses, mem_addresses_link]
  · exact fun _ member => inside (by simp [pathAddresses, member])
  · exact root
  · simp [RbTable.mem_write, storedPath_update, *]
  · simp [RbTable.mem_write, stored_link, stored_update, *]

/-- The rotations of the code that end the loop. -/
theorem deleteRotate_spec (zipped : Zipped t (⟨d, c, x, .node .black l w r⟩ :: path) focus)
    (rich : ¬ (RedBlack.Tree.node .black l w r).Poor) :
    ∃ t', deleteRotate t x.1 d w.1 (stackOf path) = .ok t' ∧
      Zipped t' path (borrow ⟨d, c, x, .node .black l w r⟩ focus) ∧
      Touches (addresses (plug (⟨d, c, x, .node .black l w r⟩ :: path) focus)) t t' := by
  have opened := RedBlack.Tree.node_eq_link d .black l w r
  have nearRed := RedBlack.Tree.red_of_not_poor rich d
  unfold borrow
  dsimp only
  generalize (RedBlack.Tree.node .black l w r).child d = near at opened nearRed ⊢
  generalize (RedBlack.Tree.node .black l w r).child (!d) = far at opened nearRed ⊢
  rw [opened] at zipped ⊢
  split
  · rename_i red
    cases far with
    | nil => cases red
    | node c' l' z r' =>
        cases red
        exact deleteRotate_far zipped
  · rename_i notRed
    have red := nearRed notRed
    cases near with
    | nil => cases red
    | node c' l' y r' =>
        cases red
        have parts := RedBlack.Tree.node_eq_link d .red l' y r'
        dsimp only
        generalize (RedBlack.Tree.node .red l' y r').child d = a at parts ⊢
        generalize (RedBlack.Tree.node .red l' y r').child (!d) = b at parts ⊢
        rw [parts] at zipped ⊢
        exact deleteRotate_near zipped (Color.eq_black notRed)

/-- A red child is painted black, and that is all. -/
theorem deleteLoop_red (zipped : Zipped t path focus) (red : focus.color = .red) (fuel : ℕ) :
    ∃ t', deleteLoop (fuel + 1) t (stackOf path) = .ok t' ∧ Zipped t' [] (plug path focus.blacken) ∧
      Touches (addresses (plug path focus)) t t' := by
  cases focus with
  | nil => cases red
  | node c l x r =>
      cases red
      rcases setColor_focus zipped .black with ⟨t', painted, zipped', touches⟩
      refine ⟨t', ?_, zipped'.closed, touches⟩
      have shade := isRed_rootPtr zipped.below
      have link := zipped.linkAt
      rcases stackOf_eq path with ⟨rest, stack⟩
      rw [rootPtr_node] at shade
      rw [stack]
      clear stack
      generalize topEntry path = entry at link ⊢
      rcases entry with ⟨p, d⟩
      simp only [deleteLoop, link, shade, ok_bind, rootPtr_node, deref, painted, RedBlack.Tree.color,
        decide_true, if_true]

/-- A round of the loop at a black child with a black sibling. -/
theorem deleteLoop_black (zipped : Zipped t (⟨d, c, x, .node .black l w r⟩ :: path) focus)
    (black : focus.color = .black) (fuel : ℕ) :
    deleteLoop (fuel + 1) t (stackOf (⟨d, c, x, .node .black l w r⟩ :: path)) =
      if (RedBlack.Tree.node .black l w r).Poor then do
        let t ← t.setColor w.1 .red
        deleteLoop fuel t (stackOf path)
      else deleteRotate t x.1 d w.1 (stackOf path) := by
  have shade := isRed_rootPtr zipped.below
  have link := zipped.linkAt
  have readP := RbTable.node_eq zipped.above.1
  have readW := RbTable.node_eq zipped.above.2.1.1
  have left := isRed_rootPtr zipped.above.2.1.2.1
  have right := isRed_rootPtr zipped.above.2.1.2.2
  rcases stackOf_eq path with ⟨rest, stack⟩
  rw [stackOf, stack]
  rw [topEntry] at link ⊢
  dsimp only at *
  simp only [deleteLoop, link, shade, black, ok_bind, pure_eq_ok, Place.ptr, readP, readW, left, right,
    links_same, links_right, links_other, rootPtr_node, deref, reduceCtorEq, decide_false,
    Bool.false_eq_true, if_false]
  rw [RedBlack.Tree.poor_node .black l w r]
  simp only [decide_eq_true_eq]

/-- A round of the loop at a black child with a red sibling, which has been turned up. -/
theorem deleteLoop_turned {t' : RbTable α} {y : NodePtr × α}
    (zipped : Zipped t (⟨d, c, x, .link d .red (.node .black l y r) w far⟩ :: path) focus)
    (black : focus.color = .black)
    (turned : deleteTurn t x.1 d w.1 (stackOf path) =
      .ok (t', stackOf (⟨d, .black, w, far⟩ :: path), y.1))
    (zipped' : Zipped t' (⟨d, .red, x, .node .black l y r⟩ :: ⟨d, .black, w, far⟩ :: path) focus)
    (fuel : ℕ) :
    deleteLoop (fuel + 1) t
        (stackOf (⟨d, c, x, .link d .red (.node .black l y r) w far⟩ :: path)) =
      if (RedBlack.Tree.node .black l y r).Poor then do
        let t ← t'.setColor y.1 .red
        deleteLoop fuel t (stackOf (⟨d, .black, w, far⟩ :: path))
      else deleteRotate t' x.1 d y.1 (stackOf (⟨d, .black, w, far⟩ :: path)) := by
  have shade := isRed_rootPtr zipped.below
  have link := zipped.linkAt
  have readP := RbTable.node_eq zipped.above.1
  have readW := RbTable.node_eq ((stored_link _ _ _ _ _).mp zipped.above.2.1).1
  have readY := RbTable.node_eq zipped'.above.2.1.1
  have left := isRed_rootPtr zipped'.above.2.1.2.1
  have right := isRed_rootPtr zipped'.above.2.1.2.2
  rcases stackOf_eq path with ⟨rest, stack⟩
  rw [stackOf, stack] at turned ⊢
  rw [topEntry] at link ⊢
  dsimp only at *
  simp only [deleteLoop, link, shade, black, ok_bind, pure_eq_ok, Place.ptr, readP, readW, left, right,
    links_same, links_right, links_other, rootPtr_link, rootPtr_node, deref, reduceCtorEq, decide_false,
    Bool.false_eq_true, if_false, if_true, turned, readY]
  rw [RedBlack.Tree.poor_node .black l y r]
  simp only [decide_eq_true_eq, stackOf, stack]

/-- The rest of a round at a black child with a red sibling: the loop ends. -/
theorem deleteLoop_turn (zipped : Zipped t (⟨d, c, x, .node .red l w r⟩ :: path) focus)
    (black : focus.color ≠ .red) {c₁ : Color} {n : ℕ}
    (sibling : Balanced (.node .red l w r) c₁ (n + 1)) (room : path.length + 2 < rbMaxHeight)
    (fuel : ℕ) :
    ∃ t', deleteLoop (fuel + 2) t (stackOf (⟨d, c, x, .node .red l w r⟩ :: path)) = .ok t' ∧
      Zipped t' [] (plug path (turn ⟨d, c, x, .node .red l w r⟩ focus)) ∧
      Touches (addresses (plug (⟨d, c, x, .node .red l w r⟩ :: path) focus)) t t' := by
  have opened := RedBlack.Tree.node_eq_link d .red l w r
  have inner := sibling.of_red d
  have turn_eq : turn ⟨d, c, x, .node .red l w r⟩ focus =
      .link d .black (if ((RedBlack.Tree.node .red l w r).child d).Poor then
        (redden ⟨d, .red, x, (RedBlack.Tree.node .red l w r).child d⟩ focus).blacken
        else borrow ⟨d, .red, x, (RedBlack.Tree.node .red l w r).child d⟩ focus) w
        ((RedBlack.Tree.node .red l w r).child !d) := rfl
  rw [turn_eq]
  generalize (RedBlack.Tree.node .red l w r).child d = near at opened inner ⊢
  generalize (RedBlack.Tree.node .red l w r).child (!d) = far at opened inner ⊢
  rcases inner.exists_node with ⟨l', y, r', rfl⟩
  rw [opened] at zipped ⊢
  rcases deleteTurn_spec zipped (rootPtr_node _ _ _ _) room with ⟨t₁, turned, zipped₁, touches₁⟩
  have same : addresses (plug (⟨d, .red, x, .node .black l' y r'⟩ :: ⟨d, .black, w, far⟩ :: path) focus) =
      addresses (plug (⟨d, c, x, .link d .red (.node .black l' y r') w far⟩ :: path) focus) := by
    have inside : (plug [⟨d, .red, x, .node .black l' y r'⟩, ⟨d, .black, w, far⟩] focus).inorder =
        (plug [⟨d, c, x, .link d .red (.node .black l' y r') w far⟩] focus).inorder := by
      cases d <;> simp [Frame.plug, RedBlack.Tree.inorder]
    exact addresses_congr (inorder_plug_congr path inside)
  rw [deleteLoop_turned zipped (Color.eq_black black) turned zipped₁]
  split
  · rcases deleteRedden_spec zipped₁ with ⟨t₂, painted, zipped₂, touches₂⟩
    rcases deleteLoop_red zipped₂ (color_link _ _ _ _ _) fuel with ⟨t₃, rest, zipped₃, touches₃⟩
    rw [addresses_congr (inorder_plug_congr _ (RedBlack.Tree.inorder_redden _ _))] at touches₃
    rw [same] at touches₂
    refine ⟨t₃, ?_, zipped₃, touches₁.trans (touches₂.trans (touches₃.mono ?_))⟩
    · rw [painted, ok_bind, rest]
    · exact fun a member => same ▸ member
  · rename_i rich
    rcases deleteRotate_spec zipped₁ rich with ⟨t₂, rotated, zipped₂, touches₂⟩
    rw [same] at touches₂
    exact ⟨t₂, rotated, zipped₂.closed, touches₁.trans touches₂⟩

/-- The loop makes up for the missing black node. -/
theorem deleteLoop_spec {n fuel : ℕ} (zipped : Zipped t path focus)
    (carries : Carries path .black (n + 1)) (lacks : focus.Lacks n)
    (room : path.length + 1 < rbMaxHeight) (enough : path.length + 1 < fuel) :
    ∃ t', deleteLoop fuel t (stackOf path) = .ok t' ∧ Zipped t' [] (replenish path focus) ∧
      Touches (addresses (plug path focus)) t t' := by
  induction path generalizing t focus n fuel with
  | nil =>
      rcases fuel with _ | fuel
      · omega
      by_cases shade : focus.color = .red
      · exact deleteLoop_red zipped shade fuel
      · refine ⟨t, ?_, ?_, Touches.refl _ _⟩
        · have dark := isRed_rootPtr zipped.below
          rw [decide_eq_false shade] at dark
          simp only [stackOf, topEntry, deleteLoop, RbTable.linkAt, zipped.root, topPtr, dark, ok_bind,
            pure_eq_ok, Bool.false_eq_true, if_false, if_true]
        · rw [replenish, RedBlack.Tree.blacken_eq_self shade]
          exact zipped
  | cons p path ih =>
      rcases fuel with _ | _ | fuel
      · omega
      · omega
      rw [List.length_cons] at room enough
      rcases carries.sibling with ⟨c₁, sibling⟩
      rcases p with ⟨d, c, x, other⟩
      rcases sibling.exists_node with ⟨l, w, r, rfl⟩
      rw [replenish]
      split
      · rename_i shade
        exact deleteLoop_red zipped shade _
      · rename_i notRed
        split
        · rename_i red
          cases red
          exact deleteLoop_turn zipped notRed sibling (by omega) fuel
        · rename_i dark
          cases Color.eq_black dark
          rw [deleteLoop_black zipped (Color.eq_black notRed)]
          split
          · rename_i poor
            rcases deleteRedden_spec zipped with ⟨t₁, painted, zipped₁, touches₁⟩
            rcases carries.redden (lacks.black notRed) dark poor with ⟨m, above, lacks₁⟩
            have room' : path.length + 1 < rbMaxHeight := by omega
            have enough' : path.length + 1 < fuel + 1 := by omega
            rcases ih zipped₁ above lacks₁ room' enough' with ⟨t₂, rest, zipped₂, touches₂⟩
            rw [addresses_congr (inorder_plug_congr path (RedBlack.Tree.inorder_redden _ _))] at touches₂
            refine ⟨t₂, ?_, zipped₂, touches₁.trans touches₂⟩
            rw [painted, ok_bind, rest]
          · rename_i rich
            rcases deleteRotate_spec zipped rich with ⟨t₁, rotated, zipped₁, touches₁⟩
            exact ⟨t₁, rotated, zipped₁.closed, touches₁⟩

/-- After unlinking, the loop is run if a black node is missing. -/
theorem deleteClose_spec {n : ℕ} (zipped : Zipped t path focus) (carries : Carries path c n)
    (balanced : Balanced (.node c focus x .nil) c n) (room : path.length + 1 < rbMaxHeight) :
    ∃ t', (if c = .black then deleteLoop deleteFuel t (stackOf path) else pure t) = Except.ok t' ∧
      Zipped t' [] (RedBlack.Tree.close path focus c) ∧
      Touches (addresses (plug path focus)) t t' := by
  cases c with
  | red =>
      exact ⟨t, rfl, zipped.closed, Touches.refl _ _⟩
  | black =>
      rcases carries.lacks balanced with ⟨m, above, lacks⟩
      have enough : path.length + 1 < deleteFuel := by
        rw [deleteFuel]
        omega
      exact deleteLoop_spec zipped above lacks room enough

section Delete

variable {κ : Type} [LinearOrder κ] {compare : α → α → ℤ} {key : α → κ} {item : α} {u : RbTree α}

/-- The table without the node `a`, whose cell is freed last. -/
theorem Represents.freed {l r : RbTree α} {a : NodePtr} {y : α} {t' : RbTable α}
    (represents : Represents key t (plug path (.node c l (a, y) r))) (zipped : Zipped t' [] u)
    (left : u.inorder = RedBlack.Tree.before path ++ (l.inorder ++ r.inorder) ++ RedBlack.Tree.after path)
    (balanced : ∃ n, u.Balanced .black n)
    (touches : Touches (addresses (plug path (.node c l (a, y) r))) t t') :
    Represents key { t'.free a with count := t'.count - 1, generation := t'.generation + 1 } u := by
  have old : (plug path (.node c l (a, y) r)).inorder =
      (RedBlack.Tree.before path ++ l.inorder) ++
        (a, y) :: (r.inorder ++ RedBlack.Tree.after path) := by
    simp [RedBlack.Tree.inorder_plug, RedBlack.Tree.inorder]
  have less : u.inorder.Sublist (plug path (.node c l (a, y) r)).inorder := by
    rw [left, old]
    simp
  have placed : ∀ b, b ∈ addresses (plug path (.node c l (a, y) r)) ↔ b = a ∨ b ∈ addresses u := by
    intro b
    simp only [addresses, left, old, List.map_append, List.map_cons, List.mem_append, List.mem_cons]
    tauto
  have out : a ∉ addresses u := by
    have nodup := represents.zipped.nodup
    rw [RedBlack.Tree.plug_nil, addresses, old, List.map_append, List.map_cons] at nodup
    have apart := (List.nodup_middle.mp nodup).notMem
    rw [addresses, left]
    simpa [List.mem_append, or_assoc] using apart
  refine ⟨⟨zipped.root, trivial, (stored_update out).mpr zipped.below, zipped.nodup⟩, ?_, balanced, ?_,
    ?_, ?_⟩
  · exact represents.sorted.sublist less
  · have count := touches.count.trans represents.count
    rw [← RedBlack.Tree.length_inorder, old] at count
    rw [← RedBlack.Tree.length_inorder, left]
    simp only [List.length_append, List.length_cons] at count ⊢
    omega
  · intro b
    by_cases same : b = a
    · subst same
      simp [RbTable.free, out]
    · have kept : (t'.free a).mem b = t'.mem b := Function.update_of_ne same _ _
      change (t'.free a).mem b ≠ none ↔ _
      rw [kept]
      by_cases inside : b ∈ addresses u
      · exact iff_of_true (zipped.below.ne_none inside) inside
      · have outside : b ∉ addresses (plug path (.node c l (a, y) r)) := by
          rw [placed]
          tauto
        rw [touches.mem b outside, represents.live]
        exact iff_of_false outside inside
  · intro b member
    rw [RbTable.free, touches.next]
    exact represents.fresh b ((placed b).mpr (Or.inr member))

/-- `rb_delete` takes the item with the key out of the table, and answers it. -/
theorem rbDelete_spec (compares : Compares compare key) (represents : Represents key t u)
    (small : t.count + 2 < 2 ^ 25) :
    ∃ t' u', rbDelete compare t item = .ok (t', lookup key (items u) (key item)) ∧
      Represents key t' u' ∧
      lookup key (items u') = Function.update (lookup key (items u)) (key item) none := by
  have high := represents.height_lt small
  have descend : deleteDescend compare t item rbMaxHeight [] .root false =
      .ok (foundAt (RedBlack.Tree.seek (nodeKey key) (key item) u [])) := by
    have room : ([] : RbPath α).length + u.height < rbMaxHeight := by simpa using high
    exact deleteDescend_spec compares represents.zipped room high
  rcases represents.seek_cases (key item) with
    ⟨path, sought, -, -, -, absent⟩ | ⟨path, c, l, r, a, y, sought, whole, same, present⟩
  · refine ⟨t, u, ?_, represents, ?_⟩
    · rw [rbDelete, descend, ok_bind, sought, absent]
      rfl
    · rw [← absent, Function.update_eq_self]
  · subst whole
    have room : path.length + (RedBlack.Tree.node c l (a, y) r).height < rbMaxHeight :=
      (RedBlack.Tree.length_add_height_le _ _).trans_lt high
    have opened := represents.zipped.opened
    rcases deleteUnlink_spec opened room with ⟨t₁, unlinked, zipped₁, ⟨n, here, shade⟩, touches₁⟩
    rcases represents.balanced with ⟨m, balanced⟩
    rcases balanced.of_plug with ⟨c', n', carries, inner⟩
    obtain rfl : c = c' := inner.color_eq
    rcases carries.excise inner with ⟨m', hole, node⟩
    have short := RedBlack.Tree.length_excise path c l (a, y) r
    rcases deleteClose_spec zipped₁ hole node (by omega) with ⟨t₂, closed, zipped₂, touches₂⟩
    refine ⟨_, _, ?_, represents.freed zipped₂ (RedBlack.Tree.inorder_erase path c l r)
      (carries.erase inner) (touches₁.trans (touches₂.mono ?_)), ?_⟩
    · rw [rbDelete, descend, ok_bind, sought]
      simp only [foundAt, RbTable.node_eq opened.below.1, ok_bind, unlinked, RbTable.node_eq here, shade]
      rw [present]
      split at closed <;> rename_i black
      · rw [if_pos black, closed]
        rfl
      · cases closed
        rw [if_neg black]
        rfl
    · intro b member
      rw [addresses, RedBlack.Tree.inorder_excise] at member
      rw [addresses, RedBlack.Tree.inorder_plug]
      refine (List.Sublist.map _ ?_).subset member
      exact (((List.sublist_cons_self _ _).append_left _).append_left _).append_right _
    · have left : items (RedBlack.Tree.erase path c l r) = ((RedBlack.Tree.before path).map Prod.snd ++
          items l) ++ (items r ++ (RedBlack.Tree.after path).map Prod.snd) := by
        rw [items, RedBlack.Tree.inorder_erase]
        simp [items]
      rw [RedBlack.Tree.erase] at left
      rw [left, items_plug_node, ← same]
      apply lookup_erase
      apply RedBlack.sorted_others
      rw [← items_plug_node]
      exact represents.sorted_items

end Delete

end Treedb
