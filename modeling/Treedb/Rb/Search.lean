import Treedb.Rb.Memory

/-!
# Tables that hold a search tree (`rb_find`)

A table is in order if its cells make up a balanced search tree and nothing else is allocated. The
items are compared by a key; the table stands for the partial map from keys to its items.
-/

namespace Treedb

open RedBlack (Color Frame lookup lookup_left lookup_right lookup_here lookup_eq_none lookup_eq_some)
open Outcome

variable {α κ : Type} [LinearOrder κ] {compare : α → α → ℤ} {key : α → κ} {item : α}
  {t : RbTable α} {u focus : RbTree α} {path : RbPath α}

/-- The comparison function orders the items by their keys. -/
structure Compares (compare : α → α → ℤ) (key : α → κ) : Prop where
  neg : ∀ x y, compare x y < 0 ↔ key x < key y
  pos : ∀ x y, compare x y > 0 ↔ key y < key x

theorem Compares.zero (compares : Compares compare key) (x y : α) :
    compare x y = 0 ↔ key x = key y := by
  have neg := compares.neg x y
  have pos := compares.pos x y
  constructor
  · intro zero
    apply le_antisymm <;> rw [← not_lt]
    · rw [← pos]
      omega
    · rw [← neg]
      omega
  · intro same
    rw [same] at neg pos
    have := neg.not.mpr (lt_irrefl _)
    have := pos.not.mpr (lt_irrefl _)
    omega

/-- The key of a node. -/
abbrev nodeKey (key : α → κ) (x : NodePtr × α) : κ :=
  key x.2

/-- The items of a tree, from left to right. -/
def items (u : RbTree α) : List α :=
  u.inorder.map Prod.snd

/-- The table represents the tree `u`. -/
structure Represents (key : α → κ) (t : RbTable α) (u : RbTree α) : Prop where
  zipped : Zipped t [] u
  sorted : u.Sorted (nodeKey key)
  balanced : ∃ n, u.Balanced .black n
  count : t.count = u.size
  /-- A cell is allocated exactly if a node of the tree is in it. -/
  live : ∀ a, t.mem a ≠ none ↔ a ∈ addresses u
  fresh : ∀ a ∈ addresses u, a < t.next

theorem items_plug_node (path : RbPath α) (c : Color) (l : RbTree α) (a : NodePtr) (x : α)
    (r : RbTree α) : items (.plug path (.node c l (a, x) r)) =
      ((RedBlack.Tree.before path).map Prod.snd ++ items l) ++
        x :: (items r ++ (RedBlack.Tree.after path).map Prod.snd) := by
  simp [items, RedBlack.Tree.inorder_plug, RedBlack.Tree.inorder]

theorem length_items (u : RbTree α) : (items u).length = u.size := by
  rw [items, List.length_map, RedBlack.Tree.length_inorder]

theorem length_addresses (u : RbTree α) : (addresses u).length = u.size := by
  rw [addresses, List.length_map, RedBlack.Tree.length_inorder]

theorem height_le_size (u : RbTree α) : u.height ≤ u.size := by
  induction u with
  | nil => exact le_refl 0
  | node c l x r ihLeft ihRight =>
      rw [RedBlack.Tree.height, RedBlack.Tree.size]
      omega

theorem Represents.sorted_items (represents : Represents key t u) :
    (items u).Pairwise fun x y => key x < key y :=
  List.pairwise_map.mpr represents.sorted

/-- No more nodes are in use than addresses were handed out. -/
theorem Represents.size_le (represents : Represents key t u) : u.size ≤ t.next := by
  have sub : addresses u ⊆ List.range t.next := by
    intro a member
    exact List.mem_range.mpr (represents.fresh a member)
  have short := (represents.zipped.nodup.subperm sub).length_le
  rwa [List.length_range, RedBlack.Tree.plug_nil, length_addresses] at short

theorem rbCreate_represents : Represents key (rbCreate : RbTable α) .nil where
  zipped := ⟨rfl, trivial, trivial, List.nodup_nil⟩
  sorted := List.Pairwise.nil
  balanced := ⟨0, .nil⟩
  count := rfl
  live := by simp [rbCreate, addresses, RedBlack.Tree.inorder]
  fresh := by simp [addresses, RedBlack.Tree.inorder]

/-- The tree of fewer than `2 ^ 25 - 2` items has fewer levels than the stacks have entries. -/
theorem Represents.height_lt (represents : Represents key t u) (small : t.count + 2 < 2 ^ 25) :
    u.height < rbMaxHeight := by
  rcases represents.balanced with ⟨n, balanced⟩
  rw [represents.count] at small
  exact balanced.height_lt (m := 24) small

/-- The place that a search for a key leads to, and what the map says of the key. -/
theorem Represents.seek_cases (represents : Represents key t u) (k : κ) :
    (∃ path : RbPath α, RedBlack.Tree.seek (nodeKey key) k u [] = (path, .nil) ∧
      RedBlack.Tree.plug path .nil = u ∧ (∀ x ∈ RedBlack.Tree.before path, nodeKey key x < k) ∧
      (∀ x ∈ RedBlack.Tree.after path, k < nodeKey key x) ∧ lookup key (items u) k = none) ∨
    ∃ (path : RbPath α) (c : Color) (l r : RbTree α) (a : NodePtr) (y : α),
      RedBlack.Tree.seek (nodeKey key) k u [] = (path, .node c l (a, y) r) ∧
        RedBlack.Tree.plug path (.node c l (a, y) r) = u ∧ key y = k ∧
        lookup key (items u) k = some y := by
  rcases RedBlack.Tree.seek_cases represents.sorted k with
    ⟨path, sought, whole, below, above⟩ | ⟨path, c, l, ⟨a, y⟩, r, sought, whole, same⟩
  · refine Or.inl ⟨path, sought, whole, below, above, lookup_eq_none.mpr ?_⟩
    intro x member
    rcases List.mem_map.mp member with ⟨z, inside, rfl⟩
    rw [← whole, RedBlack.Tree.inorder_plug] at inside
    simp only [RedBlack.Tree.inorder, List.append_nil, List.mem_append] at inside
    rcases inside with inside | inside
    · exact (below z inside).ne
    · exact (above z inside).ne'
  · refine Or.inr ⟨path, c, l, r, a, y, sought, whole, same, ?_⟩
    apply (lookup_eq_some represents.sorted_items).mpr ⟨?_, same⟩
    rw [← whole, items_plug_node]
    simp

theorem rbFindLoop_spec (compares : Compares compare key) (stored : Stored t.mem u)
    (sorted : u.Sorted (nodeKey key)) {fuel : ℕ} (enough : u.height ≤ fuel) :
    rbFindLoop compare t item fuel (rootPtr u) = .ok (lookup key (items u) (key item)) := by
  induction u generalizing fuel with
  | nil => 
      cases fuel <;> rfl
  | node c l x r ihLeft ihRight =>
      rcases stored with ⟨here, left, right⟩
      rcases sorted.node with ⟨sortedLeft, sortedRight, below, above⟩
      rw [RedBlack.Tree.height] at enough
      rcases fuel with _ | fuel
      · omega
      rw [rootPtr_node, rbFindLoop, RbTable.node_eq here]
      have parts : items (.node c l x r) = items l ++ x.2 :: items r := by
        simp [items, RedBlack.Tree.inorder]
      have smaller : ∀ y ∈ items l, key y < key x.2 := by
        intro y member
        rcases List.mem_map.mp member with ⟨z, inside, rfl⟩
        exact below z inside
      have larger : ∀ y ∈ items r, key x.2 < key y := by
        intro y member
        rcases List.mem_map.mp member with ⟨z, inside, rfl⟩
        exact above z inside
      simp only [ok_bind, pure_eq_ok, compares.neg, compares.pos, parts]
      rcases lt_trichotomy (key item) (key x.2) with before | same | after
      · rw [if_pos before, lookup_left]
        · exact ihLeft left sortedLeft (by omega)
        · intro y member
          rcases List.mem_cons.mp member with rfl | member
          · exact before.ne'
          · exact (before.trans (larger y member)).ne'
      · rw [if_neg same.not_lt, if_neg same.not_gt, same, lookup_here]
        exact fun y member => (smaller y member).ne
      · rw [if_neg after.asymm, if_pos after, List.append_cons, lookup_right]
        · exact ihRight right sortedRight (by omega)
        · intro y member
          rcases List.mem_append.mp member with member | member
          · exact ((smaller y member).trans after).ne
          · rw [List.mem_singleton.mp member]
            exact after.ne

/-- A balanced search tree in memory, outside which nothing has become allocated. -/
theorem Zipped.represents {as : List NodePtr} {base : RbTable α} (zipped : Zipped t [] u)
    (touches : Touches as base t) (sorted : u.Sorted (nodeKey key))
    (balanced : ∃ n, u.Balanced .black n) (count : base.count = u.size)
    (sub : as ⊆ addresses u) (rest : ∀ a, a ∉ addresses u → base.mem a = none)
    (fresh : ∀ a ∈ addresses u, a < base.next) : Represents key t u where
  zipped := zipped
  sorted := sorted
  balanced := balanced
  count := touches.count.trans count
  live := by
    intro a
    constructor
    · intro live
      by_contra out
      rw [touches.mem a fun member => out (sub member)] at live
      exact live (rest a out)
    · exact fun member => zipped.below.ne_none member
  fresh := by
    rw [touches.next]
    exact fresh

/-- `rb_find` answers the item with the key that is asked for, and null if there is none. -/
theorem rbFind_spec (compares : Compares compare key) (represents : Represents key t u) :
    rbFind compare t item = .ok (lookup key (items u) (key item)) := by
  have root := represents.zipped.root
  rw [topPtr] at root
  rw [rbFind, root]
  exact rbFindLoop_spec compares represents.zipped.below represents.sorted
    ((height_le_size u).trans represents.size_le)

end Treedb
