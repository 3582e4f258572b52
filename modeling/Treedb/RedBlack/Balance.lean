import Treedb.RedBlack.Tree

/-!
# Red-black balance

`Balanced t c n`: the root of `t` has the colour `c`, no red node has a red child, and every way
down passes `n` black nodes. `Carries path c n` says what a hole takes: with a balanced tree of
colour `c` and black height `n` in it, the whole tree is balanced with a black root.

Insertion puts a red node into the hole of an empty tree, and `settle` removes the conflict with a
red parent. Deletion cuts out a node that has at most one child; if it was black, `replenish` makes
up for the black node that the ways through the hole lack. Both go from the hole upwards, a frame or
two at a time, and both leave the list of items alone.
-/

namespace RedBlack

universe u

namespace Tree

variable {α : Type u}

/-- The tree has the colour and the black height given, and keeps the red-black rules. -/
inductive Balanced : Tree α → Color → ℕ → Prop
  | nil : Balanced nil .black 0
  | red {l r : Tree α} {x : α} {n : ℕ} (left : Balanced l .black n) (right : Balanced r .black n) :
      Balanced (node .red l x r) .red n
  | black {l r : Tree α} {x : α} {c c' : Color} {n : ℕ} (left : Balanced l c n)
      (right : Balanced r c' n) : Balanced (node .black l x r) .black (n + 1)

/-- A tree of the colour and the black height given may stand in the hole of the path. -/
inductive Carries : List (Frame α) → Color → ℕ → Prop
  | root (n : ℕ) : Carries [] .black n
  | red {side : Bool} {x : α} {other : Tree α} {path : List (Frame α)} {n : ℕ}
      (sibling : Balanced other .black n) (above : Carries path .red n) :
      Carries (⟨side, .red, x, other⟩ :: path) .black n
  | black {side : Bool} {x : α} {other : Tree α} {path : List (Frame α)} {c c' : Color} {n : ℕ}
      (sibling : Balanced other c n) (above : Carries path .black (n + 1)) :
      Carries (⟨side, .black, x, other⟩ :: path) c' n

variable {t : Tree α} {c : Color} {n : ℕ} {path : List (Frame α)}

theorem Balanced.color_eq (balanced : Balanced t c n) : t.color = c := by
  cases balanced <;> rfl

/-- A node is balanced over its children on either side. -/
theorem Balanced.link_red {near far : Tree α} {x : α} (d : Bool) (left : Balanced near .black n)
    (right : Balanced far .black n) : Balanced (link d .red near x far) .red n := by
  cases d
  · exact .red left right
  · exact .red right left

theorem Balanced.link_black {near far : Tree α} {x : α} {c c' : Color} (d : Bool)
    (left : Balanced near c n) (right : Balanced far c' n) :
    Balanced (link d .black near x far) .black (n + 1) := by
  cases d
  · exact .black left right
  · exact .black right left

theorem Balanced.blacken_red (balanced : Balanced t .red n) :
    Balanced t.blacken .black (n + 1) := by
  cases balanced with
  | red left right => exact .black left right

theorem Balanced.blacken_black (balanced : Balanced t .black n) : Balanced t.blacken .black n := by
  cases balanced with
  | nil => exact .nil
  | black left right => exact .black left right

/-- The children of a red node are black. -/
theorem Balanced.of_red {l r : Tree α} {x : α} (balanced : Balanced (node .red l x r) c n) (d : Bool) :
    Balanced ((node .red l x r).child d) .black n := by
  cases balanced with
  | red left right =>
      cases d
      · exact left
      · exact right

theorem Balanced.of_black {l r : Tree α} {x : α} (balanced : Balanced (node .black l x r) c (n + 1))
    (d : Bool) : ∃ c', Balanced ((node .black l x r).child d) c' n := by
  cases balanced with
  | black left right =>
      cases d
      · exact ⟨_, left⟩
      · exact ⟨_, right⟩

theorem Balanced.swap {l r : Tree α} {x : α} {c' : Color} (balanced : Balanced (node c' l x r) c n)
    (y : α) : Balanced (node c' r y l) c n := by
  cases balanced with
  | red left right => exact .red right left
  | black left right => exact .black right left

theorem Balanced.relabel {l r : Tree α} {x : α} {c' : Color} (balanced : Balanced (node c' l x r) c n)
    (y : α) : Balanced (node c' l y r) c n := by
  cases balanced with
  | red left right => exact .red left right
  | black left right => exact .black left right

/-- A tree of positive black height has a root. -/
theorem Balanced.exists_node (balanced : Balanced t c (n + 1)) : ∃ l x r, t = node c l x r := by
  cases balanced with
  | red left right => exact ⟨_, _, _, rfl⟩
  | black left right => exact ⟨_, _, _, rfl⟩

/-- A hole that takes a red node takes a black one. -/
theorem Carries.to_black (carries : Carries path c n) : Carries path .black n := by
  cases carries with
  | root n => exact .root n
  | red sibling above => exact .red sibling above
  | black sibling above => exact .black sibling above

theorem Carries.sibling {f : Frame α} (carries : Carries (f :: path) c n) :
    ∃ c', Balanced f.other c' n := by
  cases carries with
  | red sibling above => exact ⟨_, sibling⟩
  | black sibling above => exact ⟨_, sibling⟩

theorem Carries.plug (carries : Carries path c n) (balanced : Balanced t c n) :
    ∃ m, Balanced (plug path t) .black m := by
  induction carries generalizing t with
  | root n => exact ⟨n, balanced⟩
  | red sibling above ih => exact ih (balanced.link_red _ sibling)
  | black sibling above ih => exact ih (balanced.link_black _ sibling)

/-- The parts of a balanced tree are balanced. -/
theorem Balanced.of_plug {m : ℕ} (balanced : Balanced (Tree.plug path t) .black m) :
    ∃ c n, Carries path c n ∧ Balanced t c n := by
  induction path generalizing t with
  | nil => exact ⟨.black, m, .root m, balanced⟩
  | cons f path ih =>
      rcases f with ⟨side, color, x, other⟩
      rcases ih balanced with ⟨c, n, above, whole⟩
      cases side <;> cases whole with
      | red left right => exact ⟨.black, n, .red (by assumption) above, by assumption⟩
      | black left right => exact ⟨_, _, .black (by assumption) above, by assumption⟩

/-! ## Insertion -/

/-- The node of `g` with both children painted black; `t` hangs below the child of `p`. -/
def recolor (p g : Frame α) (t : Tree α) : Tree α :=
  link g.side .red (link p.side .black t p.item p.other) g.item g.other.blacken

/-- The nodes of `p` and `g`, and that of `t` if it lies inside, with the middle one on top. -/
def rotate (p g : Frame α) (t : Tree α) : Tree α :=
  if p.side = g.side then
    link g.side .black t p.item (link g.side .red p.other g.item g.other)
  else
    match t with
    | nil => g.plug (p.plug nil)
    | node c l y r =>
        link g.side .black (link g.side .red p.other p.item ((node c l y r).child g.side)) y
          (link g.side .red ((node c l y r).child (!g.side)) g.item g.other)

/-- Close the path over a red node `t` so that no red node has a red child below the root. -/
def settle : List (Frame α) → Tree α → Tree α
  | p :: g :: path, t =>
      if p.color = .red then
        if g.other.color = .red then settle path (recolor p g t) else plug path (rotate p g t)
      else plug (p :: g :: path) t
  | [p], t => p.plug t
  | [], t => t

theorem inorder_recolor (p g : Frame α) (t : Tree α) :
    (recolor p g t).inorder = (plug [p, g] t).inorder := by
  rcases p with ⟨side, c, x, other⟩
  rcases g with ⟨side', c', x', other'⟩
  cases side <;> cases side' <;> simp [recolor, Frame.plug, inorder]

theorem inorder_rotate (p g : Frame α) (t : Tree α) :
    (rotate p g t).inorder = (plug [p, g] t).inorder := by
  rcases p with ⟨side, c, x, other⟩
  rcases g with ⟨side', c', x', other'⟩
  cases t <;> cases side <;> cases side' <;> simp [rotate, Frame.plug, inorder, child]

theorem inorder_settle (path : List (Frame α)) (t : Tree α) :
    (settle path t).inorder = (plug path t).inorder := by
  induction path, t using settle.induct with
  | case1 p g path t red uncle ih =>
      rw [settle, if_pos red, if_pos uncle, ih]
      exact inorder_plug_congr path (inorder_recolor p g t)
  | case2 p g path t red uncle =>
      rw [settle, if_pos red, if_neg uncle]
      exact inorder_plug_congr path (inorder_rotate p g t)
  | case3 p g path t notRed => rw [settle, if_neg notRed]
  | case4 p t => rfl
  | case5 t => rfl

theorem Balanced.recolor {p g : Frame α} (red : Balanced t .red n)
    (sibling : Balanced p.other .black n) (uncle : Balanced g.other .red n) :
    Balanced (recolor p g t) .red (n + 1) :=
  (red.link_black p.side sibling).link_red g.side uncle.blacken_red

theorem Balanced.rotate {p g : Frame α} (red : Balanced t .red n)
    (sibling : Balanced p.other .black n) (uncle : Balanced g.other .black n) :
    Balanced (rotate p g t) .black (n + 1) := by
  unfold Tree.rotate
  split
  · exact red.link_black _ (sibling.link_red _ uncle)
  · cases red with
    | @red _ _ y _ left right =>
        have children := (Balanced.red (x := y) left right).of_red
        exact (sibling.link_red _ (children _)).link_black _ ((children _).link_red _ uncle)

/-- After the root has been painted black, the tree is balanced. -/
theorem Carries.settle (carries : Carries path .black n) (red : Balanced t .red n) :
    ∃ m, Balanced (settle path t).blacken .black m := by
  have done : ∀ {path : List (Frame α)} {t : Tree α} {c : Color} {n : ℕ}, Carries path c n →
      Balanced t c n → ∃ m, Balanced (Tree.plug path t).blacken .black m := by
    intro path t c n carries balanced
    rcases carries.plug balanced with ⟨m, whole⟩
    exact ⟨m, whole.blacken_black⟩
  induction path, t using settle.induct generalizing n with
  | case1 p g path t isRed uncle ih =>
      rw [Tree.settle, if_pos isRed, if_pos uncle]
      cases carries with
      | black => cases isRed
      | red sibling above =>
          cases above with
          | black sibling' above =>
              cases sibling'.color_eq.symm.trans uncle
              exact ih above (red.recolor sibling sibling')
  | case2 p g path t isRed uncle =>
      rw [Tree.settle, if_pos isRed, if_neg uncle]
      cases carries with
      | black => cases isRed
      | red sibling above =>
          cases above with
          | @black _ _ _ _ c _ _ sibling' above =>
              cases c with
              | black => exact done above (red.rotate sibling sibling')
              | red => exact absurd sibling'.color_eq uncle
  | case3 p g path t notRed =>
      rw [Tree.settle, if_neg notRed]
      cases carries with
      | red => exact absurd rfl notRed
      | black sibling above => exact done (.black sibling above) red
  | case4 p t =>
      cases carries with
      | red sibling above => cases above
      | black sibling above => exact done (.black sibling above) red
  | case5 t => exact ⟨_, red.blacken_red⟩

/-! ## Deletion -/

/-- The way down to the leftmost node, and the colour, item and right child of that node. -/
def leftmost : Tree α → Color → α → Tree α → List (Frame α) →
    List (Frame α) × Color × α × Tree α
  | nil, c, x, r, path => (path, c, x, r)
  | node c' l' x' r', c, x, r, path => leftmost l' c' x' r' (⟨false, c, x, r⟩ :: path)

/--
Cut out a node. If it has a right child, the leftmost node of that child takes its place and its
colour. What is left is a hole with at most one child of a cut node in it, and the colour that is
missing there.
-/
def excise (path : List (Frame α)) (c : Color) (l r : Tree α) : List (Frame α) × Tree α × Color :=
  match r with
  | nil => (path, l, c)
  | node c' l' x' r' =>
      let s := leftmost l' c' x' r' []
      (s.1 ++ ⟨true, c, s.2.2.1, l⟩ :: path, s.2.2.2, s.2.1)

/-- No child is red. -/
def Poor (w : Tree α) : Prop :=
  (w.child false).color = .black ∧ (w.child true).color = .black

instance (w : Tree α) : Decidable w.Poor :=
  inferInstanceAs (Decidable (_ ∧ _))

theorem poor_node (c : Color) (l : Tree α) (x : α) (r : Tree α) :
    (!decide (l.color = .red) && !decide (r.color = .red)) = decide (node c l x r).Poor := by
  have left : (node c l x r).child false = l := rfl
  have right : (node c l x r).child true = r := rfl
  rw [Bool.eq_iff_iff, decide_eq_true_iff, Poor, left, right]
  cases l.color <;> cases r.color <;> simp

theorem red_of_not_poor {w : Tree α} (rich : ¬ w.Poor) (d : Bool) (far : (w.child !d).color ≠ .red) :
    (w.child d).color = .red := by
  by_contra near
  cases d
  · exact rich ⟨Color.eq_black near, Color.eq_black far⟩
  · exact rich ⟨Color.eq_black far, Color.eq_black near⟩

/-- The node of `p` over `t`, with the sibling painted red. -/
def redden (p : Frame α) (t : Tree α) : Tree α :=
  match p.other with
  | nil => p.plug t
  | node _ l x r => link p.side p.color t p.item (node .red l x r)

/-- The node of `p` over `t`, after a black node came over from the sibling, which has a red child. -/
def borrow (p : Frame α) (t : Tree α) : Tree α :=
  match p.other with
  | nil => p.plug t
  | node c l x r =>
      let near := (node c l x r).child p.side
      let far := (node c l x r).child (!p.side)
      if far.color = .red then
        link p.side p.color (link p.side .black t p.item near) x far.blacken
      else
        match near with
        | nil => p.plug t
        | node c' l' y r' =>
            link p.side p.color (link p.side .black t p.item ((node c' l' y r').child p.side)) y
              (link p.side .black ((node c' l' y r').child (!p.side)) x far)

/-- The same for a red sibling, which is first turned up. -/
def turn (p : Frame α) (t : Tree α) : Tree α :=
  match p.other with
  | nil => p.plug t
  | node c l x r =>
      let near := (node c l x r).child p.side
      let inner : Frame α := ⟨p.side, .red, p.item, near⟩
      link p.side .black (if near.Poor then (redden inner t).blacken else borrow inner t) x
        ((node c l x r).child (!p.side))

/-- Close the path over `t`, where the ways through the hole lack a black node. -/
def replenish : List (Frame α) → Tree α → Tree α
  | [], t => t.blacken
  | p :: path, t =>
      if t.color = .red then plug (p :: path) t.blacken
      else if p.other.color = .red then plug path (turn p t)
      else if p.other.Poor then replenish path (redden p t)
      else plug path (borrow p t)

/-- Close the path over what is left of a cut node of colour `c`. -/
def close (path : List (Frame α)) (t : Tree α) (c : Color) : Tree α :=
  if c = .black then replenish path t else plug path t

/-- Delete the node with colour `c` and children `l` and `r` at the end of `path`. -/
def erase (path : List (Frame α)) (c : Color) (l r : Tree α) : Tree α :=
  close (excise path c l r).1 (excise path c l r).2.1 (excise path c l r).2.2

theorem plug_leftmost (l : Tree α) (c : Color) (x : α) (r : Tree α) (path : List (Frame α)) :
    plug (leftmost l c x r path).1
        (node (leftmost l c x r path).2.1 nil (leftmost l c x r path).2.2.1
          (leftmost l c x r path).2.2.2) =
      plug path (node c l x r) := by
  induction l generalizing c x r path with
  | nil => rfl
  | node c' l' x' r' ihLeft ihRight =>
      rw [leftmost, ihLeft]
      rfl

/-- Nothing lies to the left of the leftmost node. -/
theorem before_leftmost (l : Tree α) (c : Color) (x : α) (r : Tree α) (path : List (Frame α)) :
    before (leftmost l c x r path).1 = before path := by
  induction l generalizing c x r path with
  | nil => rfl
  | node c' l' x' r' ihLeft ihRight =>
      rw [leftmost, ihLeft]
      simp [before]

/-- Only the item of the node is gone. -/
theorem inorder_excise (path : List (Frame α)) (c : Color) (l r : Tree α) :
    (plug (excise path c l r).1 (excise path c l r).2.1).inorder =
      before path ++ (l.inorder ++ r.inorder) ++ after path := by
  cases r with
  | nil => simp [excise, inorder_plug, inorder]
  | node c' l' x' r' =>
      have whole := congrArg inorder (plug_leftmost l' c' x' r' [])
      rw [inorder_plug, before_leftmost, plug_nil] at whole
      simp only [before, inorder, List.nil_append] at whole
      rw [excise, inorder_plug, before_append, after_append, before_leftmost]
      simp only [inorder, ← whole]
      simp [before, after]

theorem inorder_redden (p : Frame α) (t : Tree α) : (redden p t).inorder = (p.plug t).inorder := by
  rcases p with ⟨side, c, x, other⟩
  cases other with
  | nil => rfl
  | node c' l' x' r' => cases side <;> rfl

theorem inorder_borrow (p : Frame α) (t : Tree α) : (borrow p t).inorder = (p.plug t).inorder := by
  rcases p with ⟨side, c, x, other⟩
  cases other with
  | nil => rfl
  | node c' l' x' r' =>
      unfold borrow
      cases side <;> simp only [child, Bool.not_true, Bool.not_false, Bool.false_eq_true, if_true,
        if_false]
      · split
        · simp [Frame.plug, inorder]
        · cases l' <;> simp [Frame.plug, inorder]
      · split
        · simp [Frame.plug, inorder]
        · cases r' <;> simp [Frame.plug, inorder]

theorem inorder_turn (p : Frame α) (t : Tree α) : (turn p t).inorder = (p.plug t).inorder := by
  rcases p with ⟨side, c, x, other⟩
  cases other with
  | nil => rfl
  | node c' l' x' r' =>
      unfold turn
      have same : ∀ inner : Frame α,
          (if inner.other.Poor then (redden inner t).blacken else borrow inner t).inorder =
            (inner.plug t).inorder := by
        intro inner
        split
        · rw [inorder_blacken, inorder_redden]
        · rw [inorder_borrow]
      cases side <;>
        simp only [link_false, link_true, inorder, same ⟨_, .red, x, _⟩] <;>
        simp [Frame.plug, inorder, child]

theorem inorder_replenish (path : List (Frame α)) (t : Tree α) :
    (replenish path t).inorder = (plug path t).inorder := by
  induction path generalizing t with
  | nil => exact inorder_blacken t
  | cons p path ih =>
      rw [replenish]
      split
      · exact inorder_plug_congr _ (inorder_blacken t)
      · split
        · exact inorder_plug_congr path (inorder_turn p t)
        · split
          · rw [ih]
            exact inorder_plug_congr path (inorder_redden p t)
          · exact inorder_plug_congr path (inorder_borrow p t)

theorem inorder_erase (path : List (Frame α)) (c : Color) (l r : Tree α) :
    (erase path c l r).inorder = before path ++ (l.inorder ++ r.inorder) ++ after path := by
  rw [erase, close]
  split
  · rw [inorder_replenish, inorder_excise]
  · rw [inorder_excise]

/-- The black height of a node of colour `c` over children of black height `n`. -/
def Color.raise : Color → ℕ → ℕ
  | .red, n => n
  | .black, n => n + 1

theorem Balanced.link {near far : Tree α} {x : α} (d : Bool) (c : Color)
    (left : Balanced near .black n) (right : Balanced far .black n) :
    Balanced (link d c near x far) c (Color.raise c n) := by
  cases c
  · exact left.link_black d right
  · exact left.link_red d right

theorem Balanced.redden {p : Frame α} (balanced : Balanced t .black n)
    (sibling : Balanced p.other .black (n + 1)) (poor : p.other.Poor) :
    (redden p t).color = p.color ∧ Balanced (redden p t).blacken .black (n + 1) ∧
      (p.color = .black → Balanced (redden p t) .black (n + 1)) := by
  rcases p with ⟨side, c, x, other⟩
  cases sibling with
  | @black l r y c₁ c₂ _ left right =>
      cases (show c₁ = .black from left.color_eq.symm.trans poor.1)
      cases (show c₂ = .black from right.color_eq.symm.trans poor.2)
      have whole := balanced.link_black side (x := x) (Balanced.red (x := y) left right)
      refine ⟨color_link _ _ _ _ _, ?_, ?_⟩
      · rw [Tree.redden, blacken_link]
        exact whole
      · rintro rfl
        exact whole

theorem Balanced.borrow {p : Frame α} (balanced : Balanced t .black n)
    (sibling : Balanced p.other .black (n + 1)) (rich : ¬ p.other.Poor) :
    Balanced (borrow p t) p.color (Color.raise p.color (n + 1)) := by
  rcases p with ⟨side, c, x, other⟩
  cases other with
  | nil => cases sibling
  | node c' l' y r' =>
      cases sibling with
      | black left right =>
          have children := (Balanced.black (x := y) left right).of_black
          rcases children side with ⟨c₁, near⟩
          rcases children (!side) with ⟨c₂, far⟩
          unfold Tree.borrow
          dsimp only
          split
          · rename_i red
            rw [far.color_eq] at red
            subst red
            exact (balanced.link_black side near).link side c far.blacken_red
          · rename_i notRed
            have nearRed := red_of_not_poor rich side notRed
            rw [near.color_eq] at nearRed
            subst nearRed
            generalize (node .black l' y r').child side = w at near
            cases near with
            | @red a b z _ inside outside =>
                have parts := (Balanced.red (x := z) inside outside).of_red
                exact (balanced.link_black side (parts side)).link side c
                  ((parts (!side)).link_black side far)

theorem Balanced.turn {p : Frame α} (balanced : Balanced t .black n)
    (sibling : Balanced p.other .red (n + 1)) : Balanced (turn p t) .black (n + 2) := by
  rcases p with ⟨side, c, x, other⟩
  cases other with
  | nil => cases sibling
  | node c' l' y r' =>
      cases sibling with
      | red left right =>
          have children := (Balanced.red (x := y) left right).of_red
          unfold Tree.turn
          dsimp only
          split
          · rename_i poor
            exact (Balanced.redden (p := ⟨side, .red, x, _⟩) balanced (children side)
              poor).2.1.link_black side (children (!side))
          · rename_i rich
            exact (Balanced.borrow (p := ⟨side, .red, x, _⟩) balanced (children side)
              rich).link_black side (children (!side))

/--
`t`, painted black if it is red, lacks one black node of what a hole of black height `n + 1` takes.
-/
structure Lacks (t : Tree α) (n : ℕ) : Prop where
  red : t.color = .red → Balanced t.blacken .black (n + 1)
  black : t.color ≠ .red → Balanced t .black n

theorem Balanced.lacks (balanced : Balanced t c n) : Lacks t n := by
  refine ⟨fun shade => ?_, fun notRed => ?_⟩
  · cases balanced.color_eq.symm.trans shade
    exact balanced.blacken_red
  · cases c with
    | red => exact absurd balanced.color_eq notRed
    | black => exact balanced

/-- With the sibling painted red, the node of `p` lacks what `t` lacked. -/
theorem Carries.redden {p : Frame α} (carries : Carries (p :: path) .black (n + 1))
    (balanced : Balanced t .black n) (dark : p.other.color ≠ .red) (poor : p.other.Poor) :
    ∃ m, Carries path .black (m + 1) ∧ Lacks (redden p t) m := by
  cases carries with
  | @red side x other _ _ sibling above =>
      have painted := balanced.redden (p := ⟨side, .red, x, other⟩) sibling poor
      exact ⟨n, above.to_black, fun _ => painted.2.1, fun notRed => absurd painted.1 notRed⟩
  | @black side x other _ c _ _ sibling above =>
      cases c with
      | red => exact absurd sibling.color_eq dark
      | black =>
          have painted := balanced.redden (p := ⟨side, .black, x, other⟩) sibling poor
          refine ⟨n + 1, above, fun shade => ?_, fun _ => painted.2.2 rfl⟩
          exact nomatch painted.1.symm.trans shade

/-- The tree is balanced again. -/
theorem Carries.replenish (carries : Carries path .black (n + 1)) (lacks : Lacks t n) :
    ∃ m, Balanced (replenish path t) .black m := by
  induction path generalizing t n with
  | nil =>
      by_cases shade : t.color = .red
      · exact ⟨_, lacks.red shade⟩
      · exact ⟨_, (lacks.black shade).blacken_black⟩
  | cons p path ih =>
      rw [Tree.replenish]
      split
      · rename_i shade
        exact carries.plug (lacks.red shade)
      · rename_i notRed
        have balanced := lacks.black notRed
        split
        · rename_i shade
          cases carries with
          | red sibling above => exact nomatch sibling.color_eq.symm.trans shade
          | @black side x other _ c _ _ sibling above =>
              cases sibling.color_eq.symm.trans shade
              exact above.plug (balanced.turn (p := ⟨side, .black, x, other⟩) sibling)
        · rename_i dark
          split
          · rename_i poor
            rcases carries.redden balanced dark poor with ⟨m, above, lacks'⟩
            exact ih above lacks'
          · rename_i rich
            cases carries with
            | @red side x other _ _ sibling above =>
                exact above.plug (balanced.borrow (p := ⟨side, .red, x, other⟩) sibling rich)
            | @black side x other _ c _ _ sibling above =>
                cases c with
                | red => exact absurd sibling.color_eq dark
                | black =>
                    exact above.plug (balanced.borrow (p := ⟨side, .black, x, other⟩) sibling rich)

theorem Carries.leftmost {inner outer : List (Frame α)} {l r : Tree α} {x : α}
    (carries : Carries (inner ++ outer) c n) (balanced : Balanced (node c l x r) c n) :
    ∃ m, Carries ((leftmost l c x r inner).1 ++ outer) (leftmost l c x r inner).2.1 m ∧
      Balanced (node (leftmost l c x r inner).2.1 nil (leftmost l c x r inner).2.2.1
        (leftmost l c x r inner).2.2.2) (leftmost l c x r inner).2.1 m := by
  induction l generalizing c x r inner n with
  | nil => exact ⟨n, carries, balanced⟩
  | node c' l' x' r' ihLeft ihRight =>
      cases balanced with
      | red left right =>
          cases left.color_eq
          exact ihLeft (.red right carries) left
      | black left right =>
          cases left.color_eq
          exact ihLeft (.black right carries) left

/-- Without a black node, a hole lacks one. -/
theorem Carries.lacks {x : α} (carries : Carries path .black n)
    (balanced : Balanced (node .black t x nil) .black n) :
    ∃ m, Carries path .black (m + 1) ∧ Lacks t m := by
  cases balanced with
  | black left right => exact ⟨_, carries, left.lacks⟩

/-- A node with at most one child may be cut out. -/
theorem Carries.close {x : α} (carries : Carries path c n) (balanced : Balanced (node c t x nil) c n) :
    ∃ m, Balanced (close path t c) .black m := by
  cases c with
  | red =>
      cases balanced with
      | red left right => exact carries.to_black.plug left
  | black =>
      rcases carries.lacks balanced with ⟨m, above, lacks⟩
      exact above.replenish lacks

/-- The hole that is left takes the node that was moved, if any, with the only child it had. -/
theorem Carries.excise {l r : Tree α} {x : α} (carries : Carries path c n)
    (balanced : Balanced (node c l x r) c n) :
    ∃ m, Carries (excise path c l r).1 (excise path c l r).2.2 m ∧
      Balanced (node (excise path c l r).2.2 (excise path c l r).2.1 x nil)
        (excise path c l r).2.2 m := by
  cases r with
  | nil => exact ⟨n, carries, balanced⟩
  | node c' l' x' r' =>
      unfold Tree.excise
      have below : ∀ y, ∃ n' : ℕ, Carries (⟨true, c, y, l⟩ :: path) c' n' ∧
          Balanced (node c' l' x' r') c' n' := by
        intro y
        cases balanced with
        | red left right =>
            cases right.color_eq
            exact ⟨_, .red left carries, right⟩
        | black left right =>
            cases right.color_eq
            exact ⟨_, .black left carries, right⟩
      rcases below (Tree.leftmost l' c' x' r' []).2.2.1 with ⟨n', above, right⟩
      have whole : Carries ([] ++ ⟨true, c, (Tree.leftmost l' c' x' r' []).2.2.1, l⟩ :: path) c' n' :=
        above
      rcases whole.leftmost right with ⟨m, hole, node⟩
      exact ⟨m, hole, node.swap x⟩

/-- A deletion leaves the tree balanced. -/
theorem Carries.erase {l r : Tree α} {x : α} (carries : Carries path c n)
    (balanced : Balanced (node c l x r) c n) : ∃ m, Balanced (erase path c l r) .black m := by
  rcases carries.excise balanced with ⟨m, hole, node⟩
  exact hole.close node

theorem length_leftmost (l : Tree α) (c : Color) (x : α) (r : Tree α) (path : List (Frame α)) :
    (leftmost l c x r path).1.length ≤ path.length + l.height := by
  induction l generalizing c x r path with
  | nil => exact le_refl _
  | node c' l' x' r' ihLeft ihRight =>
      have rest := ihLeft c' x' r' (⟨false, c, x, r⟩ :: path)
      rw [leftmost, height]
      rw [List.length_cons] at rest
      omega

/-- The hole is above the lowest level of the tree. -/
theorem length_excise (path : List (Frame α)) (c : Color) (l : Tree α) (x : α) (r : Tree α) :
    (excise path c l r).1.length < path.length + (node c l x r).height := by
  cases r with
  | nil =>
      simp only [excise, height]
      omega
  | node c' l' x' r' =>
      have spine := length_leftmost l' c' x' r' []
      rw [List.length_nil] at spine
      simp only [excise, height, List.length_append, List.length_cons]
      omega

/-! ## Height -/

/--
Every red node on the longest way down adds to the height, and at its black height it doubles what
must lie beside it: a tree of black height `n` that is higher by `k` has at least `2 ^ n + 2 ^ k - 2`
nodes.
-/
theorem Balanced.size_ge (balanced : Balanced t c n) :
    ∃ k, t.height = n + k ∧ k ≤ n + (if c = .red then 1 else 0) ∧ 2 ^ n + 2 ^ k ≤ t.size + 2 := by
  induction balanced with
  | nil => exact ⟨0, rfl, by simp, by simp [size]⟩
  | @red l r x n left right ihLeft ihRight =>
      rcases ihLeft with ⟨k₁, height₁, few₁, large₁⟩
      rcases ihRight with ⟨k₂, height₂, few₂, large₂⟩
      simp only [reduceCtorEq, if_false, add_zero] at few₁ few₂
      refine ⟨max k₁ k₂ + 1, ?_, ?_, ?_⟩
      · rw [height, height₁, height₂]
        omega
      · simp only [if_true]
        omega
      · have top : 2 ^ max k₁ k₂ ≤ 2 ^ n := Nat.pow_le_pow_right (by omega) (by omega)
        have some : 2 ^ max k₁ k₂ + 1 ≤ 2 ^ k₁ + 2 ^ k₂ := by
          have one₁ := Nat.one_le_two_pow (n := k₁)
          have one₂ := Nat.one_le_two_pow (n := k₂)
          rcases max_cases k₁ k₂ with ⟨same, _⟩ | ⟨same, _⟩ <;> rw [same] <;> omega
        rw [size, Nat.pow_succ]
        omega
  | @black l r x c₁ c₂ n left right ihLeft ihRight =>
      rcases ihLeft with ⟨k₁, height₁, few₁, large₁⟩
      rcases ihRight with ⟨k₂, height₂, few₂, large₂⟩
      refine ⟨max k₁ k₂, ?_, ?_, ?_⟩
      · rw [height, height₁, height₂]
        omega
      · split at few₁ <;> split at few₂ <;> simp only [reduceCtorEq, if_false] <;> omega
      · have some : 2 ^ max k₁ k₂ + 1 ≤ 2 ^ k₁ + 2 ^ k₂ := by
          have one₁ := Nat.one_le_two_pow (n := k₁)
          have one₂ := Nat.one_le_two_pow (n := k₂)
          rcases max_cases k₁ k₂ with ⟨same, _⟩ | ⟨same, _⟩ <;> rw [same] <;> omega
        rw [size, Nat.pow_succ]
        omega

/-- A tree with a black root and fewer than `2 ^ (m + 1) - 2` nodes has fewer than `2 * m` levels. -/
theorem Balanced.height_lt {m : ℕ} (balanced : Balanced t .black n)
    (small : t.size + 2 < 2 ^ (m + 1)) : t.height < 2 * m := by
  rcases balanced.size_ge with ⟨k, height, few, large⟩
  simp only [reduceCtorEq, if_false, add_zero] at few
  by_contra high
  have wide : 2 ^ (m + 1) ≤ 2 ^ n + 2 ^ k := by
    rcases Nat.lt_or_ge m n with deep | flat
    · exact (Nat.pow_le_pow_right (by omega) deep).trans (Nat.le_add_right _ _)
    · have ends : n = m ∧ k = m := by omega
      rw [ends.1, ends.2, Nat.pow_succ]
      omega
  omega

end Tree

end RedBlack
