import Treedb.RedBlack.Tree

/-!
# Walking a tree in order

`along d t` lists the items of `t` towards the side `d`: from left to right for `true`. `ahead d path`
lists what follows a hole in that direction. A walk that stands at a node has before it the subtree on
the side `d`, and then what follows the node.
-/

namespace RedBlack

universe u v

namespace Tree

variable {α : Type u} {κ : Type v} {d : Bool} {c : Color} {x : α} {near far t : Tree α}
  {path : List (Frame α)}

/-- The items of a tree, in the direction of the walk. -/
def along (d : Bool) (t : Tree α) : List α :=
  if d then t.inorder else t.inorder.reverse

/-- The items that come after the subtree in the hole, in the direction of the walk. -/
def ahead (d : Bool) (path : List (Frame α)) : List α :=
  if d then after path else (before path).reverse

@[simp]
theorem along_nil : along d (nil : Tree α) = [] := by
  cases d <;> rfl

@[simp]
theorem ahead_nil : ahead d ([] : List (Frame α)) = [] := by
  cases d <;> rfl

theorem along_not_link : along (!d) (link d c near x far) = along (!d) near ++ x :: along (!d) far := by
  cases d <;> simp [along, inorder]

/-- A frame on the side of the walk has been passed. -/
theorem ahead_same {f : Frame α} (side : f.side = d) : ahead d (f :: path) = ahead d path := by
  subst side
  rcases f with ⟨_ | _, c, x, other⟩ <;> simp [ahead, before, after]

theorem ahead_other {f : Frame α} (side : f.side = !d) :
    ahead d (f :: path) = f.item :: (along d f.other ++ ahead d path) := by
  rcases f with ⟨side', c, x, other⟩
  subst side
  cases d <;> simp [ahead, along, before, after]

/-! ## The place of an item -/

section Seek

variable [LinearOrder κ] {key : α → κ} {k : κ}

theorem seek_plug {outer : List (Frame α)} (below : ∀ y ∈ before path, key y < k)
    (above : ∀ y ∈ after path, k < key y) :
    seek key k (plug path t) outer = seek key k t (path ++ outer) := by
  induction path generalizing t with
  | nil => rfl
  | cons f path ih =>
      rcases f with ⟨side, c, x, other⟩
      rw [plug_cons, ih]
      · cases side with
        | false =>
            have less : k < key x := above x (by simp [after])
            rw [Frame.plug, link_false, seek, if_pos less]
            rfl
        | true =>
            have less : key x < k := below x (by simp [before])
            rw [Frame.plug, link_true, seek, if_neg less.asymm, if_pos less]
            rfl
      · intro y member
        exact below y (by simp [before, member])
      · intro y member
        exact above y (by simp [after, member])

/-- The search for the key of a node leads to the node. -/
theorem seek_node {l r : Tree α} (sorted : Sorted key (plug path (node c l x r))) :
    seek key (key x) (plug path (node c l x r)) [] = (path, node c l x r) := by
  rw [Sorted, inorder_plug, inorder, List.pairwise_append, List.pairwise_append] at sorted
  rcases sorted with ⟨⟨-, -, left⟩, -, right⟩
  rw [seek_plug, seek, if_neg (lt_irrefl _), if_neg (lt_irrefl _), List.append_nil]
  · intro y member
    exact left y member x (by simp)
  · intro y member
    exact right x (by simp) y member

end Seek

end Tree

end RedBlack
