import Mathlib

/-!
# Search trees with coloured nodes, and their zippers

A place in a tree is the path from the root down to it. The path is a list of frames, the innermost
first: a frame is a node without the child that the path goes through. `plug` closes a path over a
tree.

What a tree holds is its list of items from left to right, and the list of a plugged tree is what
lies before the hole, in it and after it. So rotations and colours do not matter for what is found.

The children are also addressed by a side, `false` for left and `true` for right. An algorithm that
treats the two sides alike is written and proved once, for a side `d` and its opposite.
-/

namespace RedBlack

universe u v

/-- The colour of a node. -/
inductive Color
  | black
  | red
  deriving DecidableEq, Repr

theorem Color.eq_black {c : Color} (notRed : c ≠ .red) : c = .black := by
  cases c with
  | black => rfl
  | red => exact absurd rfl notRed

/-- A binary tree with coloured nodes. -/
inductive Tree (α : Type u)
  | nil
  | node (color : Color) (left : Tree α) (item : α) (right : Tree α)

/-- A node without the child on the side `side`. -/
structure Frame (α : Type u) where
  side : Bool
  color : Color
  item : α
  other : Tree α

namespace Tree

variable {α : Type u} {κ : Type v}

/-- The colour of the root; nothing is black. -/
def color : Tree α → Color
  | nil => .black
  | node c _ _ _ => c

/-- The items from left to right. -/
def inorder : Tree α → List α
  | nil => []
  | node _ l x r => l.inorder ++ x :: r.inorder

/-- The number of nodes. -/
def size : Tree α → ℕ
  | nil => 0
  | node _ l _ r => l.size + r.size + 1

/-- The number of levels. -/
def height : Tree α → ℕ
  | nil => 0
  | node _ l _ r => max l.height r.height + 1

/-- The tree with a black root. -/
def blacken : Tree α → Tree α
  | nil => nil
  | node _ l x r => node .black l x r

theorem blacken_eq_self {t : Tree α} (notRed : t.color ≠ .red) : t.blacken = t := by
  cases t with
  | nil => rfl
  | node c l x r =>
      cases c with
      | black => rfl
      | red => exact absurd rfl notRed

/-- A node whose child on the side `d` is `near`. -/
def link (d : Bool) (c : Color) (near : Tree α) (x : α) (far : Tree α) : Tree α :=
  if d then node c far x near else node c near x far

/-- The child on the side `d`. -/
def child (d : Bool) : Tree α → Tree α
  | nil => nil
  | node _ l _ r => if d then r else l

@[simp]
theorem link_false (c : Color) (near : Tree α) (x : α) (far : Tree α) :
    link false c near x far = node c near x far :=
  rfl

@[simp]
theorem link_true (c : Color) (near : Tree α) (x : α) (far : Tree α) :
    link true c near x far = node c far x near :=
  rfl

@[simp]
theorem color_link (d : Bool) (c : Color) (near : Tree α) (x : α) (far : Tree α) :
    (link d c near x far).color = c := by
  cases d <;> rfl

@[simp]
theorem blacken_link (d : Bool) (c : Color) (near : Tree α) (x : α) (far : Tree α) :
    (link d c near x far).blacken = link d .black near x far := by
  cases d <;> rfl

theorem height_link (d : Bool) (c : Color) (near : Tree α) (x : α) (far : Tree α) :
    (link d c near x far).height = max near.height far.height + 1 := by
  cases d <;> simp [height, max_comm]

theorem link_flip (d : Bool) (c : Color) (near : Tree α) (x : α) (far : Tree α) :
    link (!d) c near x far = link d c far x near := by
  cases d <;> rfl

/-- Every node is linked over its children on both sides. -/
theorem node_eq_link (d : Bool) (c : Color) (l : Tree α) (x : α) (r : Tree α) :
    node c l x r = link d c ((node c l x r).child d) x ((node c l x r).child (!d)) := by
  cases d <;> rfl

@[simp]
theorem inorder_blacken (t : Tree α) : t.blacken.inorder = t.inorder := by
  cases t <;> rfl

theorem length_inorder (t : Tree α) : t.inorder.length = t.size := by
  induction t with
  | nil => rfl
  | node c l x r ihLeft ihRight =>
      rw [inorder, List.length_append, List.length_cons, ihLeft, ihRight, size]
      omega

theorem inorder_eq_nil {t : Tree α} : t.inorder = [] ↔ t = nil := by
  cases t <;> simp [inorder]

end Tree

/-! ## Paths -/

/-- The node of the frame with a subtree in its hole. -/
def Frame.plug {α : Type u} (f : Frame α) (t : Tree α) : Tree α :=
  Tree.link f.side f.color t f.item f.other

namespace Tree

variable {α : Type u} {κ : Type v}

/-- The whole tree, with a subtree in the hole of the path. -/
def plug (path : List (Frame α)) (t : Tree α) : Tree α :=
  path.foldl (fun t f => f.plug t) t

/-- The items to the left of the hole. -/
def before : List (Frame α) → List α
  | [] => []
  | f :: path => before path ++ if f.side then f.other.inorder ++ [f.item] else []

/-- The items to the right of the hole. -/
def after : List (Frame α) → List α
  | [] => []
  | f :: path => (if f.side then [] else f.item :: f.other.inorder) ++ after path

@[simp]
theorem plug_nil (t : Tree α) : plug [] t = t :=
  rfl

@[simp]
theorem plug_cons (f : Frame α) (path : List (Frame α)) (t : Tree α) :
    plug (f :: path) t = plug path (f.plug t) :=
  rfl

theorem plug_append (inner outer : List (Frame α)) (t : Tree α) :
    plug (inner ++ outer) t = plug outer (plug inner t) :=
  List.foldl_append

theorem before_append (inner outer : List (Frame α)) :
    before (inner ++ outer) = before outer ++ before inner := by
  induction inner with
  | nil => simp [before]
  | cons f inner ih => rw [List.cons_append, before, before, ih, List.append_assoc]

theorem after_append (inner outer : List (Frame α)) :
    after (inner ++ outer) = after inner ++ after outer := by
  induction inner with
  | nil => rfl
  | cons f inner ih => rw [List.cons_append, after, after, ih, List.append_assoc]

theorem inorder_plug (path : List (Frame α)) (t : Tree α) :
    (plug path t).inorder = before path ++ t.inorder ++ after path := by
  induction path generalizing t with
  | nil => simp [before, after]
  | cons f path ih =>
      rw [plug_cons, ih]
      rcases f with ⟨side, c, x, other⟩
      cases side <;> simp [before, after, Frame.plug, inorder]

/-- Equal contents of the hole give equal contents of the tree. -/
theorem inorder_plug_congr {t t' : Tree α} (path : List (Frame α))
    (same : t.inorder = t'.inorder) : (plug path t).inorder = (plug path t').inorder := by
  rw [inorder_plug, inorder_plug, same]

/-- The nodes of a path lie on one way down from the root. -/
theorem length_add_height_le (path : List (Frame α)) (t : Tree α) :
    path.length + t.height ≤ (plug path t).height := by
  induction path generalizing t with
  | nil => simp
  | cons f path ih =>
      have below : t.height + 1 ≤ (f.plug t).height := by
        rcases f with ⟨side, c, x, other⟩
        cases side <;> simp only [Frame.plug, link_false, link_true, height] <;> omega
      have rest := ih (f.plug t)
      rw [plug_cons, List.length_cons]
      omega

/-! ## Searching -/

section Search

variable [LinearOrder κ] (key : α → κ)

/-- The keys increase from left to right. -/
def Sorted (t : Tree α) : Prop :=
  t.inorder.Pairwise fun x y => key x < key y

/-- Go down to the item with the key `k`, or to the empty place where it belongs. -/
def seek (k : κ) : Tree α → List (Frame α) → List (Frame α) × Tree α
  | nil, path => (path, nil)
  | node c l x r, path =>
      if k < key x then seek k l (⟨false, c, x, r⟩ :: path)
      else if key x < k then seek k r (⟨true, c, x, l⟩ :: path)
      else (path, node c l x r)

variable {key} {k : κ}

theorem plug_seek (t : Tree α) (path : List (Frame α)) :
    plug (seek key k t path).1 (seek key k t path).2 = plug path t := by
  induction t generalizing path with
  | nil => rfl
  | node c l x r ihLeft ihRight =>
      rw [seek]
      split
      · rw [ihLeft]
        rfl
      · split
        · rw [ihRight]
          rfl
        · rfl

/-- What is found has the key that was sought. -/
theorem seek_found {t : Tree α} {path path' : List (Frame α)} {c : Color} {l r : Tree α} {x : α}
    (found : seek key k t path = (path', node c l x r)) : key x = k := by
  induction t generalizing path with
  | nil => simp [seek] at found
  | node c' l' x' r' ihLeft ihRight =>
      rw [seek] at found
      split at found
      · exact ihLeft found
      · split at found
        · exact ihRight found
        · rename_i notBelow notAbove
          simp only [Prod.mk.injEq, node.injEq] at found
          rw [← found.2.2.2.1]
          exact le_antisymm (not_lt.mp notBelow) (not_lt.mp notAbove)

theorem Sorted.node {c : Color} {l r : Tree α} {x : α} (sorted : Sorted key (node c l x r)) :
    Sorted key l ∧ Sorted key r ∧ (∀ y ∈ l.inorder, key y < key x) ∧
      ∀ y ∈ r.inorder, key x < key y := by
  rw [Sorted, inorder, List.pairwise_append, List.pairwise_cons] at sorted
  rcases sorted with ⟨left, ⟨above, right⟩, apart⟩
  exact ⟨left, right, fun y member => apart y member x List.mem_cons_self, above⟩

/-- The way down keeps smaller keys to the left and larger keys to the right. -/
theorem seek_apart {t : Tree α} {path : List (Frame α)} (sorted : Sorted key t)
    (left : ∀ y ∈ before path, key y < k) (right : ∀ y ∈ after path, k < key y) :
    (∀ y ∈ before (seek key k t path).1, key y < k) ∧
      ∀ y ∈ after (seek key k t path).1, k < key y := by
  induction t generalizing path with
  | nil => exact ⟨left, right⟩
  | node c l x r ihLeft ihRight =>
      rcases sorted.node with ⟨sortedLeft, sortedRight, below, above⟩
      rw [seek]
      split
      · rename_i smaller
        apply ihLeft sortedLeft
        · simpa [before] using left
        · intro y member
          simp only [after, Bool.false_eq_true, if_false, List.cons_append, List.mem_cons,
            List.mem_append] at member
          rcases member with rfl | member | member
          · exact smaller
          · exact smaller.trans (above y member)
          · exact right y member
      · split
        · rename_i larger
          apply ihRight sortedRight
          · intro y member
            simp only [before, if_true, List.mem_append, List.mem_singleton] at member
            rcases member with member | member | rfl
            · exact left y member
            · exact (below y member).trans larger
            · exact larger
          · simpa [after] using right
        · exact ⟨left, right⟩

/--
From the root, the way down ends at the item with the key, or in an empty place between the smaller
and the larger keys.
-/
theorem seek_cases {t : Tree α} (sorted : Sorted key t) (k : κ) :
    (∃ path, seek key k t [] = (path, nil) ∧ plug path nil = t ∧ (∀ y ∈ before path, key y < k) ∧
      ∀ y ∈ after path, k < key y) ∨
    ∃ path c l x r, seek key k t [] = (path, node c l x r) ∧ plug path (node c l x r) = t ∧
      key x = k := by
  have apart : (∀ y ∈ before (seek key k t []).1, key y < k) ∧
      ∀ y ∈ after (seek key k t []).1, k < key y :=
    seek_apart sorted (by simp [before]) (by simp [after])
  have whole : plug (seek key k t []).1 (seek key k t []).2 = t := plug_seek t []
  rcases found : seek key k t [] with ⟨path, _ | ⟨c, l, x, r⟩⟩
  · rw [found] at apart whole
    exact Or.inl ⟨path, rfl, whole, apart⟩
  · rw [found] at whole
    exact Or.inr ⟨path, c, l, x, r, rfl, whole, seek_found found⟩

end Search

end Tree

/-! ## A list of items as a map -/

section Lookup

variable {α : Type u} {κ : Type v} [DecidableEq κ] {key : α → κ} {k : κ} {l left right : List α}
  {x : α}

/-- The item with the key `k`. -/
def lookup (key : α → κ) (l : List α) (k : κ) : Option α :=
  l.find? fun x => decide (key x = k)

theorem lookup_eq_none : lookup key l k = none ↔ ∀ x ∈ l, key x ≠ k := by
  simp [lookup, List.find?_eq_none]

theorem lookup_append : lookup key (left ++ right) k = (lookup key left k).or (lookup key right k) :=
  List.find?_append

theorem lookup_left (absent : ∀ y ∈ right, key y ≠ k) :
    lookup key (left ++ right) k = lookup key left k := by
  rw [lookup_append, lookup_eq_none.mpr absent, Option.or_none]

theorem lookup_right (absent : ∀ y ∈ left, key y ≠ k) :
    lookup key (left ++ right) k = lookup key right k := by
  rw [lookup_append, lookup_eq_none.mpr absent, Option.none_or]

theorem lookup_here (absent : ∀ y ∈ left, key y ≠ key x) :
    lookup key (left ++ x :: right) (key x) = some x := by
  rw [lookup_right absent]
  simp [lookup]

/-- An item whose key no other item has is one entry of the map. -/
theorem lookup_insert (others : ∀ y ∈ left ++ right, key y ≠ key x) :
    lookup key (left ++ x :: right) = Function.update (lookup key (left ++ right)) (key x) (some x) := by
  funext k
  by_cases same : k = key x
  · rw [same, Function.update_self]
    exact lookup_here fun y member => others y (List.mem_append_left _ member)
  · rw [Function.update_of_ne same, lookup, lookup, List.find?_append, List.find?_append,
      List.find?_cons_of_neg (by simpa using fun equal => same equal.symm)]

/-- Without it that entry is gone. -/
theorem lookup_erase (others : ∀ y ∈ left ++ right, key y ≠ key x) :
    lookup key (left ++ right) = Function.update (lookup key (left ++ x :: right)) (key x) none := by
  rw [lookup_insert others, Function.update_idem, ← lookup_eq_none.mpr others,
    Function.update_eq_self]

/-- An item takes the place of another one with the same key. -/
theorem lookup_replace {y : α} (same : key y = key x) (others : ∀ z ∈ left ++ right, key z ≠ key x) :
    lookup key (left ++ x :: right) =
      Function.update (lookup key (left ++ y :: right)) (key x) (some x) := by
  rw [lookup_insert others, lookup_insert (by rwa [same]), same, Function.update_idem]

end Lookup

section Sorted

variable {α : Type u} {κ : Type v} [LinearOrder κ] {key : α → κ} {left right : List α} {x : α}

/-- In a sorted list no two items have one key. -/
theorem sorted_others (sorted : (left ++ x :: right).Pairwise fun y z => key y < key z) :
    ∀ y ∈ left ++ right, key y ≠ key x := by
  rw [List.pairwise_append, List.pairwise_cons] at sorted
  rcases sorted with ⟨-, ⟨above, -⟩, below⟩
  intro y member
  rcases List.mem_append.mp member with member | member
  · exact (below y member x List.mem_cons_self).ne
  · exact (above y member).ne'

theorem sorted_unique {l : List α} {y : α} (sorted : l.Pairwise fun y z => key y < key z)
    (member : x ∈ l) (member' : y ∈ l) (same : key x = key y) : x = y := by
  have apart : (l.map key).Nodup := List.pairwise_map.mpr (sorted.imp fun less => less.ne)
  exact List.inj_on_of_nodup_map apart member member' same

theorem lookup_eq_some {l : List α} {k : κ} (sorted : l.Pairwise fun y z => key y < key z) :
    lookup key l k = some x ↔ x ∈ l ∧ key x = k := by
  constructor
  · intro found
    refine ⟨List.mem_of_find?_eq_some found, ?_⟩
    simpa using List.find?_some found
  · rintro ⟨member, same⟩
    cases found : lookup key l k with
    | none => exact absurd same (lookup_eq_none.mp found x member)
    | some y =>
        have equal : key y = k := by simpa using List.find?_some found
        rw [sorted_unique sorted member (List.mem_of_find?_eq_some found) (same.trans equal.symm)]

/-- An item is put between the smaller and the larger ones. -/
theorem sorted_insert (sorted : (left ++ right).Pairwise fun y z => key y < key z)
    (below : ∀ y ∈ left, key y < key x) (above : ∀ y ∈ right, key x < key y) :
    (left ++ x :: right).Pairwise fun y z => key y < key z := by
  rw [List.pairwise_append] at sorted ⊢
  rcases sorted with ⟨sortedLeft, sortedRight, apart⟩
  refine ⟨sortedLeft, List.pairwise_cons.mpr ⟨above, sortedRight⟩, ?_⟩
  intro y member z member'
  rcases List.mem_cons.mp member' with rfl | member'
  · exact below y member
  · exact apart y member z member'

end Sorted

end RedBlack
