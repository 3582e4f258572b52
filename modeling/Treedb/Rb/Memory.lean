import Treedb.Rb.Table
import Treedb.RedBlack.Balance

/-!
# The memory of a table as a tree

The cells of a table make up a tree whose items are pairs of an address and the data at it. `Stored`
says so of a tree below a pointer, `StoredPath` of a path down from the root. `Zipped t path focus`
is the state of an algorithm whose stack is at the end of `path`: the tree of the table is `focus`
at that place, and no two of its nodes share an address.

A step of an algorithm writes a few nodes and the link of the place where the path ends. What it
does to the rest of the table follows from which addresses it writes.
-/

namespace Treedb

open RedBlack (Color Frame)

variable {α : Type}

/-- A tree of nodes: addresses with the data at them. -/
abbrev RbTree (α : Type) := RedBlack.Tree (NodePtr × α)

/-- A path of nodes, from the innermost frame outwards. -/
abbrev RbPath (α : Type) := List (Frame (NodePtr × α))

/-- The address of the root node. -/
def rootPtr : RbTree α → Option NodePtr
  | .nil => none
  | .node _ _ x _ => some x.1

@[simp]
theorem rootPtr_nil : rootPtr (.nil : RbTree α) = none := by
  rw [rootPtr]

@[simp]
theorem rootPtr_node (c : Color) (l : RbTree α) (x : NodePtr × α) (r : RbTree α) :
    rootPtr (.node c l x r) = some x.1 :=
  rfl

/-- The links of a node, given for a side `d` and the other side. -/
def links (d : Bool) (near far : Option NodePtr) : Bool → Option NodePtr :=
  fun e => if e = d then near else far

@[simp]
theorem links_same (d : Bool) (near far : Option NodePtr) : links d near far d = near := by
  simp [links]

@[simp]
theorem links_other (d : Bool) (near far : Option NodePtr) : links d near far (!d) = far := by
  simp [links]

@[simp]
theorem update_links_same (d : Bool) (near far q : Option NodePtr) :
    Function.update (links d near far) d q = links d q far := by
  funext e
  by_cases same : e = d <;> simp [links, same]

@[simp]
theorem update_links_other (d : Bool) (near far q : Option NodePtr) :
    Function.update (links d near far) (!d) q = links d near q := by
  funext e
  cases d <;> cases e <;> simp [links]

/-- The links given for the left side first. -/
@[simp]
theorem links_right (left right : Option NodePtr) : links false left right true = right :=
  links_other false left right

@[simp]
theorem update_links_right (left right q : Option NodePtr) :
    Function.update (links false left right) true q = links false left q :=
  update_links_other false left right q

theorem links_flip (d : Bool) (near far : Option NodePtr) : links (!d) near far = links d far near := by
  funext e
  cases d <;> cases e <;> simp [links]

/-- The nodes of the tree are stored at their addresses, with links to each other. -/
def Stored (mem : NodePtr → Option (RbNode α)) : RbTree α → Prop
  | .nil => True
  | .node c l x r =>
      mem x.1 = some ⟨links false (rootPtr l) (rootPtr r), x.2, c⟩ ∧ Stored mem l ∧ Stored mem r

/-- The nodes of a path, the innermost of which points to `q` at the hole. -/
def StoredPath (mem : NodePtr → Option (RbNode α)) : RbPath α → Option NodePtr → Prop
  | [], _ => True
  | f :: path, q =>
      mem f.item.1 = some ⟨links f.side q (rootPtr f.other), f.item.2, f.color⟩ ∧
        Stored mem f.other ∧ StoredPath mem path (some f.item.1)

/-- The addresses of the nodes, from left to right. -/
def addresses (t : RbTree α) : List NodePtr :=
  t.inorder.map Prod.fst

/-- The addresses of the nodes of a path. -/
def pathAddresses : RbPath α → List NodePtr
  | [] => []
  | f :: path => f.item.1 :: (addresses f.other ++ pathAddresses path)

theorem pathAddresses_subset (f : Frame (NodePtr × α)) (path : RbPath α) :
    pathAddresses path ⊆ pathAddresses (f :: path) := by
  intro a member
  simp [pathAddresses, member]

/-- The pointer in the root when the hole holds `q`. -/
def topPtr : RbPath α → Option NodePtr → Option NodePtr
  | [], q => q
  | f :: path, _ => topPtr path (some f.item.1)

@[simp]
theorem rootPtr_link (d : Bool) (c : Color) (near : RbTree α) (x : NodePtr × α) (far : RbTree α) :
    rootPtr (.link d c near x far) = some x.1 := by
  cases d <;> rfl

theorem rootPtr_plug (path : RbPath α) (t : RbTree α) :
    rootPtr (.plug path t) = topPtr path (rootPtr t) := by
  induction path generalizing t with
  | nil => rfl
  | cons f path ih =>
      rw [RedBlack.Tree.plug_cons, ih, topPtr, Frame.plug, rootPtr_link]

theorem stored_link {mem : NodePtr → Option (RbNode α)} (d : Bool) (c : Color) (near : RbTree α)
    (x : NodePtr × α) (far : RbTree α) :
    Stored mem (.link d c near x far) ↔
      mem x.1 = some ⟨links d (rootPtr near) (rootPtr far), x.2, c⟩ ∧ Stored mem near ∧
        Stored mem far := by
  cases d
  · rfl
  · rw [RedBlack.Tree.link_true, Stored, ← Bool.not_false, links_flip]
    exact and_congr Iff.rfl and_comm

theorem stored_plug {mem : NodePtr → Option (RbNode α)} (path : RbPath α) (t : RbTree α) :
    Stored mem (.plug path t) ↔ StoredPath mem path (rootPtr t) ∧ Stored mem t := by
  induction path generalizing t with
  | nil => simp [StoredPath]
  | cons f path ih =>
      rw [RedBlack.Tree.plug_cons, ih, Frame.plug, stored_link, rootPtr_link, StoredPath]
      tauto

theorem storedPath_append {mem : NodePtr → Option (RbNode α)} (inner outer : RbPath α)
    (q : Option NodePtr) : StoredPath mem (inner ++ outer) q ↔
      StoredPath mem inner q ∧ StoredPath mem outer (topPtr inner q) := by
  induction inner generalizing q with
  | nil => simp [StoredPath, topPtr]
  | cons f inner ih =>
      rw [List.cons_append, StoredPath, ih, StoredPath, topPtr]
      tauto

theorem topPtr_append (inner outer : RbPath α) (q : Option NodePtr) :
    topPtr (inner ++ outer) q = topPtr outer (topPtr inner q) := by
  induction inner generalizing q with
  | nil => rfl
  | cons f inner ih => rw [List.cons_append, topPtr, ih, topPtr]

theorem pathAddresses_append (inner outer : RbPath α) :
    pathAddresses (inner ++ outer) = pathAddresses inner ++ pathAddresses outer := by
  induction inner with
  | nil => rfl
  | cons f inner ih => simp [pathAddresses, ih]

theorem addresses_link_perm (d : Bool) (c : Color) (near : RbTree α) (x : NodePtr × α)
    (far : RbTree α) :
    (addresses (.link d c near x far)).Perm (x.1 :: (addresses near ++ addresses far)) := by
  cases d
  · simp only [addresses, RedBlack.Tree.link_false, RedBlack.Tree.inorder, List.map_append,
      List.map_cons]
    exact List.perm_middle
  · simp only [addresses, RedBlack.Tree.link_true, RedBlack.Tree.inorder, List.map_append,
      List.map_cons]
    exact List.perm_middle.trans (List.perm_append_comm.cons _)

theorem addresses_plug_perm (path : RbPath α) (t : RbTree α) :
    (addresses (.plug path t)).Perm (pathAddresses path ++ addresses t) := by
  induction path generalizing t with
  | nil => exact List.Perm.refl _
  | cons f path ih =>
      rw [RedBlack.Tree.plug_cons, pathAddresses]
      refine (ih _).trans (((addresses_link_perm f.side f.color t f.item f.other).append_left _).trans ?_)
      simp only [List.cons_append, List.append_assoc]
      refine List.perm_middle.trans (List.Perm.cons _ ?_)
      refine List.perm_append_comm.trans ?_
      rw [List.append_assoc]
      exact (List.perm_append_comm_assoc _ _ _).trans (by
        rw [List.perm_append_left_iff]
        exact List.perm_append_comm)

theorem mem_addresses_plug (path : RbPath α) (t : RbTree α) (a : NodePtr) :
    a ∈ addresses (.plug path t) ↔ a ∈ pathAddresses path ∨ a ∈ addresses t := by
  rw [(addresses_plug_perm path t).mem_iff, List.mem_append]

theorem mem_addresses_link (d : Bool) (c : Color) (near : RbTree α) (x : NodePtr × α)
    (far : RbTree α) (a : NodePtr) :
    a ∈ addresses (.link d c near x far) ↔ a = x.1 ∨ a ∈ addresses near ∨ a ∈ addresses far := by
  rw [(addresses_link_perm d c near x far).mem_iff, List.mem_cons, List.mem_append]

theorem mem_addresses_node (c : Color) (l : RbTree α) (x : NodePtr × α) (r : RbTree α) (a : NodePtr) :
    a ∈ addresses (.node c l x r) ↔ a = x.1 ∨ a ∈ addresses l ∨ a ∈ addresses r :=
  mem_addresses_link false c l x r a

/-- A tree stays where its cells are left alone. -/
theorem Stored.congr {mem mem' : NodePtr → Option (RbNode α)} {t : RbTree α} (stored : Stored mem t)
    (same : ∀ a ∈ addresses t, mem' a = mem a) : Stored mem' t := by
  induction t with
  | nil => trivial
  | node c l x r ihLeft ihRight =>
      rcases stored with ⟨here, left, right⟩
      have parts := mem_addresses_node c l x r
      refine ⟨?_, ihLeft left fun a member => ?_, ihRight right fun a member => ?_⟩
      · rw [same _ ((parts _).mpr (Or.inl rfl)), here]
      · exact same a ((parts a).mpr (Or.inr (Or.inl member)))
      · exact same a ((parts a).mpr (Or.inr (Or.inr member)))

theorem StoredPath.congr {mem mem' : NodePtr → Option (RbNode α)} {path : RbPath α}
    {q : Option NodePtr} (stored : StoredPath mem path q)
    (same : ∀ a ∈ pathAddresses path, mem' a = mem a) : StoredPath mem' path q := by
  induction path generalizing q with
  | nil => trivial
  | cons f path ih =>
      rcases stored with ⟨here, other, above⟩
      simp only [pathAddresses, List.mem_cons, List.mem_append] at same
      refine ⟨?_, other.congr fun a member => ?_, ih above fun a member => ?_⟩
      · rw [same _ (Or.inl rfl), here]
      · exact same a (Or.inr (Or.inl member))
      · exact same a (Or.inr (Or.inr member))

/-- Every item of the tree lies in the cell with its address. -/
theorem Stored.data {mem : NodePtr → Option (RbNode α)} {t : RbTree α} (stored : Stored mem t)
    {x : NodePtr × α} (member : x ∈ t.inorder) : ∃ n, mem x.1 = some n ∧ n.data = x.2 := by
  induction t with
  | nil => exact nomatch member
  | node c l y r ihLeft ihRight =>
      rcases stored with ⟨here, left, right⟩
      rw [RedBlack.Tree.inorder, List.mem_append, List.mem_cons] at member
      rcases member with member | rfl | member
      · exact ihLeft left member
      · exact ⟨_, here, rfl⟩
      · exact ihRight right member

theorem Stored.ne_none {mem : NodePtr → Option (RbNode α)} {t : RbTree α} (stored : Stored mem t)
    {a : NodePtr} (member : a ∈ addresses t) : mem a ≠ none := by
  rcases List.mem_map.mp member with ⟨x, inside, rfl⟩
  rcases stored.data inside with ⟨n, here, -⟩
  rw [here]
  exact Option.some_ne_none n

/-- A write elsewhere does not matter. -/
theorem stored_update {mem : NodePtr → Option (RbNode α)} {t : RbTree α} {p : NodePtr}
    {n : Option (RbNode α)} (out : p ∉ addresses t) :
    Stored (Function.update mem p n) t ↔ Stored mem t := by
  have same : ∀ a ∈ addresses t, Function.update mem p n a = mem a := by
    intro a member
    apply Function.update_of_ne
    rintro rfl
    exact out member
  exact ⟨fun stored => stored.congr fun a member => (same a member).symm, fun stored => stored.congr same⟩

theorem storedPath_update {mem : NodePtr → Option (RbNode α)} {path : RbPath α}
    {q : Option NodePtr} {p : NodePtr} {n : Option (RbNode α)} (out : p ∉ pathAddresses path) :
    StoredPath (Function.update mem p n) path q ↔ StoredPath mem path q := by
  have same : ∀ a ∈ pathAddresses path, Function.update mem p n a = mem a := by
    intro a member
    apply Function.update_of_ne
    rintro rfl
    exact out member
  exact ⟨fun stored => stored.congr fun a member => (same a member).symm, fun stored => stored.congr same⟩

/-! ## Reading and writing -/

namespace RbTable

variable {t : RbTable α} {p q : NodePtr} {n : RbNode α}

theorem node_eq (here : t.mem p = some n) : t.node p = .ok n := by
  rw [node, here]

@[simp]
theorem node_write_same : (t.write p n).node p = .ok n := by
  simp [node, write]

theorem node_write_ne (apart : q ≠ p) : (t.write p n).node q = t.node q := by
  simp [node, write, apart]

theorem mem_write : (t.write p n).mem = Function.update t.mem p (some n) :=
  rfl

@[simp]
theorem write_write_same (n' : RbNode α) : (t.write p n).write p n' = t.write p n' := by
  simp [write]

end RbTable

/-! ## The state of an algorithm -/

/-- The table holds the tree plugged together from `path` and `focus`, each node at its own address. -/
structure Zipped (t : RbTable α) (path : RbPath α) (focus : RbTree α) : Prop where
  root : t.root = topPtr path (rootPtr focus)
  above : StoredPath t.mem path (rootPtr focus)
  below : Stored t.mem focus
  nodup : (addresses (.plug path focus)).Nodup

/-- The entry of the stack for the place where the path ends. -/
def topEntry : RbPath α → Place × Bool
  | [] => (.root, false)
  | f :: _ => (.node f.item.1, f.side)

/-- The stack of the library after a descent along the path. -/
def stackOf : RbPath α → RbStack
  | [] => [topEntry ([] : RbPath α)]
  | f :: path => topEntry (f :: path) :: stackOf path

/-- The entries for the nodes of a path. -/
def entriesOf (path : RbPath α) : RbStack :=
  path.map fun f => (.node f.item.1, f.side)

theorem stackOf_append (inner outer : RbPath α) :
    stackOf (inner ++ outer) = entriesOf inner ++ stackOf outer := by
  induction inner with
  | nil => rfl
  | cons f inner ih => rw [List.cons_append, stackOf, ih, topEntry, entriesOf, entriesOf,
      List.map_cons, List.cons_append]

theorem stackOf_eq (path : RbPath α) : ∃ below, stackOf path = topEntry path :: below := by
  cases path with
  | nil => exact ⟨[], rfl⟩
  | cons f path => exact ⟨stackOf path, rfl⟩

theorem length_stackOf (path : RbPath α) : (stackOf path).length = path.length + 1 := by
  induction path with
  | nil => rfl
  | cons f path ih => rw [stackOf, List.length_cons, ih, List.length_cons]

/-- Only cells with these addresses may have changed. -/
structure Touches (as : List NodePtr) (t t' : RbTable α) : Prop where
  mem : ∀ a, a ∉ as → t'.mem a = t.mem a
  next : t'.next = t.next
  count : t'.count = t.count
  generation : t'.generation = t.generation

variable {t t' t'' : RbTable α} {path : RbPath α} {focus : RbTree α} {as as' : List NodePtr}
  {p : NodePtr} {q : Option NodePtr} {n : RbNode α}

theorem Touches.refl (as : List NodePtr) (t : RbTable α) : Touches as t t :=
  ⟨fun _ _ => rfl, rfl, rfl, rfl⟩

theorem Touches.trans (first : Touches as t t') (second : Touches as t' t'') : Touches as t t'' :=
  ⟨fun a out => (second.mem a out).trans (first.mem a out), second.next.trans first.next,
    second.count.trans first.count, second.generation.trans first.generation⟩

theorem Touches.mono (touches : Touches as t t') (sub : as ⊆ as') : Touches as' t t' :=
  ⟨fun a out => touches.mem a fun member => out (sub member), touches.next, touches.count,
    touches.generation⟩

theorem Touches.write (touches : Touches as t t') (member : p ∈ as) : Touches as t (t'.write p n) := by
  refine ⟨?_, touches.next, touches.count, touches.generation⟩
  intro a out
  rw [RbTable.mem_write, Function.update_of_ne, touches.mem a out]
  rintro rfl
  exact out member

theorem nodup_addresses_plug : (addresses (.plug path focus)).Nodup ↔
    (pathAddresses path ++ addresses focus).Nodup :=
  (addresses_plug_perm path focus).nodup_iff

theorem subset_addresses_plug (path : RbPath α) (focus : RbTree α) :
    pathAddresses path ⊆ addresses (.plug path focus) :=
  fun a member => (mem_addresses_plug path focus a).mpr (Or.inl member)

theorem addresses_congr {focus' : RbTree α} (same : focus.inorder = focus'.inorder) :
    addresses focus = addresses focus' := by
  rw [addresses, same, addresses]

/-- The innermost node of a path lies apart from the others. -/
theorem innermost_apart {f : Frame (NodePtr × α)}
    (nodup : (addresses (.plug (f :: path) focus)).Nodup) :
    f.item.1 ∉ addresses f.other ∧ f.item.1 ∉ pathAddresses path ∧
      f.item.1 ∉ addresses focus := by
  rw [nodup_addresses_plug, pathAddresses, List.cons_append, List.nodup_cons] at nodup
  simpa only [List.mem_append, not_or, and_assoc] using nodup.1

/-- So does the next one, also from the innermost one and what hangs at it. -/
theorem second_apart {f g : Frame (NodePtr × α)}
    (nodup : (addresses (.plug (f :: g :: path) focus)).Nodup) :
    g.item.1 ≠ f.item.1 ∧ g.item.1 ∉ addresses f.other ∧ g.item.1 ∉ addresses g.other ∧
      g.item.1 ∉ pathAddresses path ∧ g.item.1 ∉ addresses focus := by
  rw [RedBlack.Tree.plug_cons] at nodup
  rcases innermost_apart nodup with ⟨other, above, below⟩
  rw [Frame.plug, mem_addresses_link, not_or, not_or] at below
  exact ⟨below.1, below.2.2, other, above, below.2.1⟩

/-- Let the hole of a path point elsewhere. -/
theorem setLinkAt_path (root : t.root = topPtr path q) (above : StoredPath t.mem path q)
    (nodup : (pathAddresses path).Nodup) (r : Option NodePtr) :
    ∃ t', t.setLinkAt r (topEntry path) = .ok t' ∧ t'.root = topPtr path r ∧
      StoredPath t'.mem path r ∧ Touches (pathAddresses path) t t' := by
  cases path with
  | nil => exact ⟨{ t with root := r }, rfl, rfl, trivial, fun _ _ => rfl, rfl, rfl, rfl⟩
  | cons f path =>
      rcases above with ⟨here, other, above⟩
      simp only [pathAddresses, List.nodup_cons, List.mem_append, not_or] at nodup
      rcases nodup with ⟨⟨outOther, outPath⟩, -⟩
      refine ⟨t.write f.item.1 ⟨links f.side r (rootPtr f.other), f.item.2, f.color⟩, ?_, root,
        ⟨?_, (stored_update outOther).mpr other, (storedPath_update outPath).mpr above⟩,
        (Touches.refl _ _).write List.mem_cons_self⟩
      · simp [topEntry, RbTable.setLinkAt, RbTable.setLink, RbTable.modify, RbTable.node_eq here]
      · simp [RbTable.write]

/-- Hang another subtree into the hole, after the cells with addresses `as` were written. -/
theorem setLinkAt_topEntry (touches : Touches as t t') (sub : pathAddresses path ⊆ as)
    (root : t'.root = topPtr path q) (above : StoredPath t'.mem path q)
    (below : Stored t'.mem focus) (nodup : (addresses (.plug path focus)).Nodup)
    {r : Option NodePtr} (here : rootPtr focus = r) :
    ∃ t'', t'.setLinkAt r (topEntry path) = .ok t'' ∧ Zipped t'' path focus ∧ Touches as t t'' := by
  subst here
  have apart := List.nodup_append'.mp (nodup_addresses_plug.mp nodup)
  rcases setLinkAt_path root above apart.1 (rootPtr focus) with ⟨t'', linked, root', above', touches'⟩
  refine ⟨t'', linked, ⟨root', above', below.congr fun a member => ?_, nodup⟩,
    touches.trans (touches'.mono sub)⟩
  exact touches'.mem a fun member' => apart.2.2 member' member

/-- The same state, seen from the root. -/
theorem Zipped.closed (zipped : Zipped t path focus) : Zipped t [] (.plug path focus) := by
  refine ⟨?_, trivial, (stored_plug path focus).mpr ⟨zipped.above, zipped.below⟩, zipped.nodup⟩
  rw [zipped.root, topPtr, rootPtr_plug]

theorem Zipped.opened (zipped : Zipped t [] (.plug path focus)) : Zipped t path focus := by
  rcases zipped with ⟨root, -, below, nodup⟩
  rw [topPtr, rootPtr_plug] at root
  exact ⟨root, ((stored_plug path focus).mp below).1, ((stored_plug path focus).mp below).2, nodup⟩

/-- The subtree in the hole and the one beside it change places. -/
theorem Zipped.flip {d : Bool} {c : Color} {x : NodePtr × α} {other : RbTree α}
    (zipped : Zipped t (⟨d, c, x, other⟩ :: path) focus) :
    Zipped t (⟨!d, c, x, focus⟩ :: path) other := by
  apply Zipped.opened
  have closed := zipped.closed
  rwa [RedBlack.Tree.plug_cons, Frame.plug, ← RedBlack.Tree.link_flip] at closed

/-- What the last entry of the stack points to. -/
theorem Zipped.linkAt (zipped : Zipped t path focus) :
    t.linkAt (topEntry path).1 (topEntry path).2 = .ok (rootPtr focus) := by
  cases path with
  | nil =>
      rw [topEntry, RbTable.linkAt, zipped.root]
      rfl
  | cons f path =>
      rw [topEntry, RbTable.linkAt, RbTable.node_eq zipped.above.1]
      simp [Except.map]

/-- Paint the root of the subtree in the hole. -/
theorem setColor_focus {c : Color} {l r : RbTree α} {x : NodePtr × α}
    (zipped : Zipped t path (.node c l x r)) (c' : Color) :
    ∃ t', t.setColor x.1 c' = .ok t' ∧ Zipped t' path (.node c' l x r) ∧
      Touches (addresses (.plug path (.node c l x r))) t t' := by
  rcases zipped with ⟨root, above, ⟨here, left, right⟩, nodup⟩
  have nodup' : (addresses (.plug (⟨false, c, x, r⟩ :: path) l)).Nodup := nodup
  rcases innermost_apart nodup' with ⟨outRight, outPath, outLeft⟩
  have same : addresses (.plug path (.node c' l x r)) = addresses (.plug path (.node c l x r)) :=
    addresses_congr (RedBlack.Tree.inorder_plug_congr path rfl)
  refine ⟨t.write x.1 ⟨links false (rootPtr l) (rootPtr r), x.2, c'⟩, ?_, ⟨root,
    (storedPath_update outPath).mpr above, ⟨?_, (stored_update outLeft).mpr left,
      (stored_update outRight).mpr right⟩, ?_⟩, (Touches.refl _ _).write ?_⟩
  · simp [RbTable.setColor, RbTable.modify, RbTable.node_eq here]
  · simp [RbTable.write]
  · rwa [same]
  · rw [mem_addresses_plug, mem_addresses_node]
    exact Or.inr (Or.inl rfl)

theorem isRed_rootPtr {u : RbTree α} (stored : Stored t.mem u) :
    t.isRed (rootPtr u) = .ok (decide (u.color = .red)) := by
  cases u with
  | nil => rfl
  | node c l x r =>
      rw [rootPtr, RbTable.isRed, RbTable.node_eq stored.1]
      rfl

end Treedb
