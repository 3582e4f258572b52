import Treedb.RedBlack.Walk
import Treedb.Rb.Run

/-!
# Traversers (`rb_t_init`, `rb_t_first`, `rb_t_next`)

A traverser is a node and the stack of the nodes above it. The stack may be out of date: then
`trav_refresh` finds the way to the node again. The functions for the other direction differ in the
sides only, so that both are written once for a side `d`: `true` for `rb_t_next`.
-/

namespace Treedb

open RedBlack (Color Frame)
open RedBlack.Tree (plug link_flip along ahead ahead_same ahead_other along_not_link
  along_nil ahead_nil)
open Outcome

variable {α : Type}

/-- `struct rb_traverser`, without the pointer to its table. -/
structure RbTraverser where
  node : Option NodePtr
  /-- `rb_stack`, the last entry first. -/
  stack : List NodePtr
  generation : ℕ

/-- Push a node; the stack of a traverser has 48 entries. -/
def stacked (stack : List NodePtr) (x : NodePtr) : Except RbFault (List NodePtr) :=
  if stack.length < rbMaxHeight then .ok (x :: stack) else .error .stackOverflow

/-- The way down from `x` along the side `d`. -/
def traverseDown (t : RbTable α) (d : Bool) :
    ℕ → List NodePtr → NodePtr → Except RbFault (List NodePtr × NodePtr)
  | 0, _, _ => .error .endless
  | fuel + 1, stack, x => do
      match (← t.node x).link d with
      | none => return (stack, x)
      | some y => traverseDown t d fuel (← stacked stack x) y

/-- The way up from `y`, as long as it comes from the side `d`. -/
def traverseUp (t : RbTable α) (d : Bool) :
    NodePtr → List NodePtr → Except RbFault (List NodePtr × Option NodePtr)
  | _, [] => .ok ([], none)
  | y, x :: stack => do
      if some y = (← t.node x).link d then traverseUp t d x stack
      else return (stack, some x)

/-- The stack is full before this many rounds are over. -/
def traverseFuel : ℕ :=
  rbMaxHeight + 1

/-- The item at the node of a traverser. -/
def rbTCur (t : RbTable α) (trav : RbTraverser) : Except RbFault (Option α) :=
  match trav.node with
  | none => .ok none
  | some x => (t.node x).map fun n => some n.data

/-- `rb_t_init`. -/
def rbTInit (t : RbTable α) : RbTraverser where
  node := none
  stack := []
  generation := t.generation

/-- `rb_t_first` for `false`, `rb_t_last` for `true`. -/
def rbTEnd (t : RbTable α) (d : Bool) : Except RbFault (RbTraverser × Option α) :=
  match t.root with
  | none => .ok ({ rbTInit t with node := none }, none)
  | some x => do
      let (stack, x) ← traverseDown t d traverseFuel [] x
      return ({ rbTInit t with stack := stack, node := some x }, some (← t.node x).data)

/-- `rb_t_first`. -/
def rbTFirst (t : RbTable α) : Except RbFault (RbTraverser × Option α) :=
  rbTEnd t false

/-- `rb_t_last`. -/
def rbTLast (t : RbTable α) : Except RbFault (RbTraverser × Option α) :=
  rbTEnd t true

/-- The loop of `trav_refresh`; an `assert` fails where the way ends before the node is met. -/
def refreshLoop (compare : α → α → ℤ) (t : RbTable α) (node : NodePtr) :
    ℕ → List NodePtr → Option NodePtr → Except RbFault (List NodePtr)
  | 0, _, _ => .error .endless
  | fuel + 1, stack, i =>
      if i = some node then .ok stack
      else do
        let i ← deref i
        let stack ← stacked stack i
        let cmp := compare (← t.node node).data (← t.node i).data
        refreshLoop compare t node fuel stack ((← t.node i).link (decide (cmp > 0)))

/-- `trav_refresh`: the stack is made anew after the table has changed. -/
def travRefresh (compare : α → α → ℤ) (t : RbTable α) (trav : RbTraverser) :
    Except RbFault RbTraverser := do
  let trav := { trav with generation := t.generation }
  match trav.node with
  | none => return trav
  | some node => return { trav with stack := ← refreshLoop compare t node traverseFuel [] t.root }

/-- `rb_t_next` for `true`, `rb_t_prev` for `false`. -/
def rbTStep (d : Bool) (compare : α → α → ℤ) (t : RbTable α) (trav : RbTraverser) :
    Except RbFault (RbTraverser × Option α) := do
  let trav ← if trav.generation ≠ t.generation then travRefresh compare t trav else pure trav
  match trav.node with
  | none => rbTEnd t !d
  | some x =>
      match (← t.node x).link d with
      | some y => do
          let (stack, x) ← traverseDown t (!d) traverseFuel (← stacked trav.stack x) y
          return ({ trav with stack := stack, node := some x }, some (← t.node x).data)
      | none => do
          let (stack, x) ← traverseUp t d x trav.stack
          let trav := { trav with stack := stack, node := x }
          return (trav, ← rbTCur t trav)

/-- `rb_t_next`. -/
def rbTNext (compare : α → α → ℤ) (t : RbTable α) (trav : RbTraverser) :
    Except RbFault (RbTraverser × Option α) :=
  rbTStep true compare t trav

/-- `rb_t_prev`. -/
def rbTPrev (compare : α → α → ℤ) (t : RbTable α) (trav : RbTraverser) :
    Except RbFault (RbTraverser × Option α) :=
  rbTStep false compare t trav

/-! ## The walk -/

/-- The stack of a traverser at the end of a path. -/
def ptrsOf (path : RbPath α) : List NodePtr :=
  path.map fun f => f.item.1

variable {t : RbTable α} {path : RbPath α} {focus near far : RbTree α} {d : Bool} {c : Color}
  {x : NodePtr × α}

theorem stacked_ptrsOf (path : RbPath α) (f : Frame (NodePtr × α)) (room : path.length < rbMaxHeight) :
    stacked (ptrsOf path) f.item.1 = .ok (ptrsOf (f :: path)) := by
  rw [stacked, if_pos]
  · rfl
  · rwa [ptrsOf, List.length_map]

/-- The way down leads to the first node of the subtree in the direction away from `d`. -/
theorem traverseDown_spec (zipped : Zipped t path focus) {y : NodePtr} (top : rootPtr focus = some y)
    (room : path.length + focus.height < rbMaxHeight) {fuel : ℕ} (enough : focus.height < fuel) :
    ∃ path' c x far, traverseDown t d fuel (ptrsOf path) y = .ok (ptrsOf path', x.1) ∧
      plug path' (.link d c .nil x far) = plug path focus ∧
      along (!d) focus ++ ahead (!d) path = x :: (along (!d) far ++ ahead (!d) path') := by
  induction fuel generalizing path focus y with
  | zero => omega
  | succ fuel ih =>
      cases focus with
      | nil => cases top
      | node c l x r =>
          rw [RedBlack.Tree.node_eq_link d c l x r] at zipped top room enough ⊢
          generalize (RedBlack.Tree.node c l x r).child d = near at zipped top room enough ⊢
          generalize (RedBlack.Tree.node c l x r).child (!d) = far at zipped top room enough ⊢
          rw [RedBlack.Tree.height_link] at room enough
          rw [rootPtr_link] at top
          cases top
          rcases (stored_link _ _ _ _ _).mp zipped.below with ⟨here, -, -⟩
          cases near with
          | nil =>
              refine ⟨path, c, x, far, ?_, rfl, ?_⟩
              · rw [traverseDown, RbTable.node_eq here, ok_bind]
                simp
              · rw [along_not_link, along_nil]
                rfl
          | node c' l' z r' =>
              have inner : Zipped t (⟨d, c, x, far⟩ :: path) (.node c' l' z r') :=
                Zipped.opened zipped.closed
              have room' : (⟨d, c, x, far⟩ :: path).length + (RedBlack.Tree.node c' l' z r').height <
                  rbMaxHeight := by
                rw [List.length_cons]
                omega
              rcases ih inner rfl room' (by omega) with ⟨path', c₁, w, rest, down, same, order⟩
              refine ⟨path', c₁, w, rest, ?_, same, ?_⟩
              · have push := stacked_ptrsOf path ⟨d, c, x, far⟩ (by omega)
                rw [traverseDown, RbTable.node_eq here, ok_bind]
                simp only [links_same, rootPtr_node, push, ok_bind]
                exact down
              · rw [← order, ahead_other (by simp), along_not_link]
                simp

theorem mem_addresses_of_rootPtr {u : RbTree α} {y : NodePtr} (top : rootPtr u = some y) :
    y ∈ addresses u := by
  cases u with
  | nil => cases top
  | node c l x r =>
      cases top
      exact (mem_addresses_node c l x r x.1).mpr (Or.inl rfl)

/-- The way up leads to the first node that follows the subtree in the direction of `d`. -/
theorem traverseUp_spec (zipped : Zipped t path focus) {y : NodePtr} (top : rootPtr focus = some y) :
    (traverseUp t d y (ptrsOf path) = .ok ([], none) ∧ ahead d path = []) ∨
    ∃ path' c near x far, traverseUp t d y (ptrsOf path) = .ok (ptrsOf path', some x.1) ∧
      plug path' (.link d c near x far) = plug path focus ∧
      ahead d path = x :: (along d near ++ ahead d path') := by
  induction path generalizing focus y with
  | nil => exact Or.inl ⟨rfl, ahead_nil⟩
  | cons f path ih =>
      have here := RbTable.node_eq zipped.above.1
      have above : Zipped t path (f.plug focus) := Zipped.opened zipped.closed
      have apart : some y ≠ rootPtr f.other := by
        intro same
        have nodup := (List.nodup_append'.mp (nodup_addresses_plug.mp zipped.nodup)).2.2
        apply nodup _ (mem_addresses_of_rootPtr top)
        simp [pathAddresses, mem_addresses_of_rootPtr same.symm]
      by_cases side : f.side = d
      · have up : traverseUp t d y (ptrsOf (f :: path)) = traverseUp t d f.item.1 (ptrsOf path) := by
          rw [ptrsOf, List.map_cons, traverseUp, here, ok_bind, ← side, if_pos]
          · rfl
          · dsimp only
            rw [links_same, top]
        rw [up, ahead_same side]
        exact ih above (rootPtr_link _ _ _ _ _)
      · have other : f.side = !d := Bool.eq_not.mpr side
        refine Or.inr ⟨path, f.color, f.other, f.item, focus, ?_, ?_, ahead_other other⟩
        · rw [ptrsOf, List.map_cons, traverseUp, here, ok_bind, if_neg]
          · rfl
          · dsimp only
            rwa [other, links_flip, links_same]
        · rw [RedBlack.Tree.plug_cons, Frame.plug, other, link_flip]

/-! ## A step -/

/--
The traverser stands in the tree `u` with the nodes of `todo` before it. Without a node it starts
over; its stack may be out of date when the table has changed.
-/
def Stands (d : Bool) (t : RbTable α) (u : RbTree α) (trav : RbTraverser)
    (todo : List (NodePtr × α)) : Prop :=
  (trav.node = none ∧ todo = along d u) ∨
  ∃ path c near x far, plug path (.link d c near x far) = u ∧ trav.node = some x.1 ∧
    (trav.generation = t.generation → trav.stack = ptrsOf path) ∧ todo = along d near ++ ahead d path

theorem Zipped.cell {u : RbTree α} (zipped : Zipped t [] u) (whole : plug path (.link d c near x far) = u) :
    t.node x.1 = .ok ⟨links d (rootPtr near) (rootPtr far), x.2, c⟩ := by
  subst whole
  exact RbTable.node_eq ((stored_link _ _ _ _ _).mp zipped.opened.below).1

/-- Both ends of the tree are found from the root. -/
theorem rbTEnd_spec {u : RbTree α} (zipped : Zipped t [] u) (high : u.height < rbMaxHeight) :
    ∃ trav, rbTEnd t (!d) = .ok (trav, (along d u).head?.map Prod.snd) ∧
      trav.generation = t.generation ∧ trav.node = (along d u).head?.map Prod.fst ∧
      Stands d t u trav (along d u).tail := by
  have root := zipped.root
  rw [topPtr] at root
  cases u with
  | nil =>
      refine ⟨{ rbTInit t with node := none }, ?_, rfl, ?_, Or.inl ⟨rfl, ?_⟩⟩
      · rw [rbTEnd, root, along_nil]
        rfl
      · rw [along_nil]
        rfl
      · rw [along_nil]
        rfl
  | node c l y r =>
      have room : ([] : RbPath α).length + (RedBlack.Tree.node c l y r).height < rbMaxHeight := by
        simpa using high
      have enough : (RedBlack.Tree.node c l y r).height < traverseFuel := high.trans (by decide)
      have down := traverseDown_spec (d := !d) zipped (rootPtr_node c l y r) room enough
      rcases down with ⟨path, c', x, far, down, same, order⟩
      rw [Bool.not_not, ahead_nil, List.append_nil] at order
      rw [link_flip] at same
      rw [RedBlack.Tree.plug_nil] at same
      refine ⟨{ rbTInit t with stack := ptrsOf path, node := some x.1 }, ?_, rfl, ?_, Or.inr
        ⟨path, c', far, x, .nil, same, rfl, fun _ => rfl, ?_⟩⟩
      · rw [order, rbTEnd, root, rootPtr_node]
        simp only [show ([] : List NodePtr) = ptrsOf ([] : RbPath α) from rfl, down, ok_bind,
          zipped.cell same]
        rfl
      · rw [order]
        rfl
      · rw [order]
        rfl

section Step

variable {κ : Type} [LinearOrder κ] {compare : α → α → ℤ} {key : α → κ} {u : RbTree α}

/-- The way of `trav_refresh` is that of a search. -/
theorem refreshLoop_way (compares : Compares compare key) {n : RbNode α} (here : t.mem x.1 = some n)
    (data : n.data = x.2) (stored : Stored t.mem focus)
    (room : path.length + focus.height < rbMaxHeight) {fuel : ℕ} (enough : focus.height < fuel)
    {path' : RbPath α} {l r : RbTree α}
    (found : RedBlack.Tree.seek (nodeKey key) (key x.2) focus path = (path', .node c l x r)) :
    refreshLoop compare t x.1 fuel (ptrsOf path) (rootPtr focus) = .ok (ptrsOf path') := by
  induction focus generalizing path fuel with
  | nil => simp [RedBlack.Tree.seek] at found
  | node c₁ l₁ z r₁ ihLeft ihRight =>
      rcases stored with ⟨there, left, right⟩
      rcases fuel with _ | fuel
      · omega
      rw [RedBlack.Tree.height] at room enough
      rw [refreshLoop, rootPtr_node]
      by_cases same : z.1 = x.1
      · have equal : z.2 = x.2 := by
          rw [same, here] at there
          rw [← data]
          cases there
          rfl
        rw [RedBlack.Tree.seek, nodeKey, equal, if_neg (lt_irrefl _), if_neg (lt_irrefl _)] at found
        cases found
        rw [if_pos (congrArg some same)]
      · rw [if_neg fun equal => same (Option.some.inj equal)]
        have push : stacked (ptrsOf path) z.1 = .ok (z.1 :: ptrsOf path) := by
          rw [stacked, if_pos]
          rw [ptrsOf, List.length_map]
          omega
        simp only [deref, RbTable.node_eq here, RbTable.node_eq there, data, push, ok_bind]
        rw [RedBlack.Tree.seek] at found
        split at found
        · rename_i less
          have side : decide (compare x.2 z.2 > 0) = false :=
            decide_eq_false ((compares.pos _ _).not.mpr less.asymm)
          have step : (⟨false, c₁, z, r₁⟩ :: path).length + l₁.height < rbMaxHeight := by
            rw [List.length_cons]
            omega
          rw [side]
          exact ihLeft left step (by omega) found
        · split at found
          · rename_i more
            have side : decide (compare x.2 z.2 > 0) = true :=
              decide_eq_true ((compares.pos _ _).mpr more)
            have step : (⟨true, c₁, z, l₁⟩ :: path).length + r₁.height < rbMaxHeight := by
              rw [List.length_cons]
              omega
            rw [side]
            exact ihRight right step (by omega) found
          · cases found
            exact absurd rfl same

theorem refreshLoop_spec (compares : Compares compare key) (represents : Represents key t u)
    (small : t.count + 2 < 2 ^ 25) {l r : RbTree α} (whole : plug path (.node c l x r) = u) :
    refreshLoop compare t x.1 traverseFuel [] t.root = .ok (ptrsOf path) := by
  have high := represents.height_lt small
  have root := represents.zipped.root
  rw [topPtr] at root
  have here := ((stored_plug path (.node c l x r)).mp (whole ▸ represents.zipped.below)).2.1
  have found : RedBlack.Tree.seek (nodeKey key) (key x.2) u [] = (path, .node c l x r) := by
    have sorted := represents.sorted
    subst whole
    exact RedBlack.Tree.seek_node sorted
  have room : ([] : RbPath α).length + u.height < rbMaxHeight := by simpa using high
  rw [root]
  exact refreshLoop_way compares here rfl represents.zipped.below room (high.trans (by decide)) found

/-- A traverser with an up-to-date stack goes on to the next node. -/
theorem rbTStep_goes (zipped : Zipped t [] u) (high : u.height < rbMaxHeight)
    (whole : plug path (.link d c near x far) = u) {trav : RbTraverser}
    (generation : trav.generation = t.generation) (node : trav.node = some x.1)
    (stack : trav.stack = ptrsOf path) {todo : List (NodePtr × α)}
    (order : along d near ++ ahead d path = todo) :
    ∃ trav', rbTStep d compare t trav = .ok (trav', todo.head?.map Prod.snd) ∧
      trav'.generation = t.generation ∧ trav'.node = todo.head?.map Prod.fst ∧
      (todo ≠ [] → Stands d t u trav' todo.tail) := by
  have here := zipped.cell whole
  have start : rbTStep d compare t trav = (do
      match (← t.node x.1).link d with
      | some y => do
          let (stack, x) ← traverseDown t (!d) traverseFuel (← stacked trav.stack x.1) y
          return ({ trav with stack := stack, node := some x }, some (← t.node x).data)
      | none => do
          let (stack, x) ← traverseUp t d x.1 trav.stack
          let trav := { trav with stack := stack, node := x }
          return (trav, ← rbTCur t trav)) := by
    rw [rbTStep, if_neg (not_not_intro generation), pure_eq_ok, ok_bind]
    simp only [node]
  rw [start, here, ok_bind, stack]
  clear start
  cases near with
  | nil =>
      have opened : Zipped t path (.link d c .nil x far) := Zipped.opened (whole ▸ zipped)
      rw [along_nil, List.nil_append] at order
      rcases traverseUp_spec (d := d) opened (rootPtr_link _ _ _ _ _) with
        ⟨up, last⟩ | ⟨path', c', near', y, far', up, whole', next⟩
      · rw [last] at order
        subst order
        refine ⟨{ trav with stack := [], node := none }, ?_, generation, rfl, fun some => absurd rfl some⟩
        simp only [links_same, rootPtr_nil, up, ok_bind, rbTCur]
        rfl
      · rw [next] at order
        subst order
        rw [whole] at whole'
        refine ⟨{ trav with stack := ptrsOf path', node := some y.1 }, ?_, generation, rfl,
          fun _ => Or.inr ⟨path', c', near', y, far', whole', rfl, fun _ => rfl, rfl⟩⟩
        simp only [links_same, rootPtr_nil, up, ok_bind, rbTCur, zipped.cell whole']
        rfl
  | node c' l y r =>
      have opened : Zipped t (⟨d, c, x, far⟩ :: path) (.node c' l y r) := Zipped.opened (whole ▸ zipped)
      have low : (⟨d, c, x, far⟩ :: path).length + (RedBlack.Tree.node c' l y r).height < rbMaxHeight := by
        apply (RedBlack.Tree.length_add_height_le _ _).trans_lt
        rwa [RedBlack.Tree.plug_cons, Frame.plug, whole]
      have enough : (RedBlack.Tree.node c' l y r).height < traverseFuel := by
        rw [traverseFuel]
        omega
      have push := stacked_ptrsOf path ⟨d, c, x, far⟩ (by
        rw [List.length_cons] at low
        omega)
      rcases traverseDown_spec (d := !d) opened (rootPtr_node _ _ _ _) low enough with
        ⟨path', c₁, z, rest, down, whole', next⟩
      have passed : ahead d (⟨d, c, x, far⟩ :: path) = ahead d path := ahead_same rfl
      rw [Bool.not_not, passed, order] at next
      rw [link_flip, RedBlack.Tree.plug_cons, Frame.plug, whole] at whole'
      subst next
      refine ⟨{ trav with stack := ptrsOf path', node := some z.1 }, ?_, generation, rfl,
        fun _ => Or.inr ⟨path', c₁, rest, z, .nil, whole', rfl, fun _ => rfl, rfl⟩⟩
      simp only [links_same, rootPtr_node, push, down, ok_bind, zipped.cell whole']
      rfl

/-- A step of a traverser whose stack is out of date is one of the refreshed traverser. -/
theorem rbTStep_refreshed {trav trav' : RbTraverser} (old : trav.generation ≠ t.generation)
    (refreshed : travRefresh compare t trav = .ok trav') (generation : trav'.generation = t.generation) :
    rbTStep d compare t trav = rbTStep d compare t trav' := by
  rw [rbTStep, if_pos old, refreshed, rbTStep, if_neg (not_not_intro generation), pure_eq_ok, ok_bind]

/-- A step answers the next item in order, also after the table has changed. -/
theorem rbTStep_spec (compares : Compares compare key) (represents : Represents key t u)
    (small : t.count + 2 < 2 ^ 25) {trav : RbTraverser} {todo : List (NodePtr × α)}
    (stands : Stands d t u trav todo) :
    ∃ trav', rbTStep d compare t trav = .ok (trav', todo.head?.map Prod.snd) ∧
      trav'.generation = t.generation ∧ trav'.node = todo.head?.map Prod.fst ∧
      (todo ≠ [] → Stands d t u trav' todo.tail) := by
  have high := represents.height_lt small
  rcases stands with ⟨nowhere, rfl⟩ | ⟨path, c, near, x, far, whole, node, stack, rfl⟩
  · rcases rbTEnd_spec (d := d) represents.zipped high with ⟨trav', run, generation, node, stands⟩
    refine ⟨trav', ?_, generation, node, fun _ => stands⟩
    have start : ∀ trav : RbTraverser, trav.node = none → trav.generation = t.generation →
        rbTStep d compare t trav = rbTEnd t !d := by
      intro trav nowhere generation
      rw [rbTStep, if_neg (not_not_intro generation), pure_eq_ok, ok_bind]
      simp only [nowhere]
    rw [← run]
    by_cases current : trav.generation = t.generation
    · exact start trav nowhere current
    · have refreshed : travRefresh compare t trav = .ok { trav with generation := t.generation } := by
        simp only [travRefresh, nowhere]
        rfl
      rw [rbTStep_refreshed current refreshed rfl]
      exact start _ nowhere rfl
  · by_cases current : trav.generation = t.generation
    · exact rbTStep_goes represents.zipped high whole current node (stack current) rfl
    · have way : refreshLoop compare t x.1 traverseFuel [] t.root = .ok (ptrsOf path) := by
        cases d
        · exact refreshLoop_spec compares represents small whole
        · exact refreshLoop_spec compares represents small whole
      have refreshed : travRefresh compare t trav =
          .ok { trav with generation := t.generation, stack := ptrsOf path } := by
        simp only [travRefresh, node, way, ok_bind]
        rfl
      rw [rbTStep_refreshed current refreshed rfl]
      refine rbTStep_goes represents.zipped high whole ?_ ?_ ?_ rfl
      · rfl
      · exact node
      · rfl

/-! ## A whole traversal -/

/-- `while ((item = rb_t_next(&traverser)))`: the items in the order of the calls. -/
def traverseLoop (d : Bool) (compare : α → α → ℤ) (t : RbTable α) :
    ℕ → RbTraverser → Except RbFault (List α)
  | 0, _ => .error .endless
  | fuel + 1, trav => do
      let (trav, item) ← rbTStep d compare t trav
      match item with
      | none => return []
      | some item => return item :: (← traverseLoop d compare t fuel trav)

theorem traverseLoop_spec (compares : Compares compare key) (represents : Represents key t u)
    (small : t.count + 2 < 2 ^ 25) {trav : RbTraverser} {todo : List (NodePtr × α)}
    (stands : Stands d t u trav todo) {fuel : ℕ} (enough : todo.length < fuel) :
    traverseLoop d compare t fuel trav = .ok (todo.map Prod.snd) := by
  induction todo generalizing trav fuel with
  | nil =>
      rcases fuel with _ | fuel
      · exact absurd enough (Nat.not_lt_zero _)
      rcases rbTStep_spec compares represents small stands with ⟨trav', run, -, -, -⟩
      rw [traverseLoop, run, ok_bind]
      rfl
  | cons x todo ih =>
      rcases fuel with _ | fuel
      · exact absurd enough (Nat.not_lt_zero _)
      rcases rbTStep_spec compares represents small stands with ⟨trav', run, -, -, stands'⟩
      have rest := ih (stands' (List.cons_ne_nil _ _)) (Nat.lt_of_succ_lt_succ enough)
      rw [traverseLoop, run, ok_bind]
      simp only [List.head?_cons, Option.map_some, rest, ok_bind, pure_eq_ok, List.map_cons]

/-- A traversal of a table visits every item once, in order. -/
theorem rbTraverse_spec (compares : Compares compare key) (represents : Represents key t u)
    (small : t.count + 2 < 2 ^ 25) :
    traverseLoop true compare t (t.count + 1) (rbTInit t) = .ok (items u) := by
  have stands : Stands true t u (rbTInit t) u.inorder := Or.inl ⟨rfl, rfl⟩
  apply traverseLoop_spec compares represents small stands
  rw [represents.count, ← RedBlack.Tree.length_inorder]
  exact Nat.lt_succ_self _

end Step

/-! ## `rb_destroy` -/

/-- The loop of `rb_destroy`: the items given to `destroy`, and the memory that is left. -/
def rbDestroyLoop (t : RbTable α) : ℕ → Option NodePtr → Except RbFault (List α × RbTable α)
  | _, none => .ok ([], t)
  | 0, some _ => .error .endless
  | fuel + 1, some p => do
      let n ← t.node p
      match n.link false with
      | none => do
          let (rest, t) ← rbDestroyLoop (t.free p) fuel (n.link true)
          return (n.data :: rest, t)
      | some q => do
          let m ← t.node q
          let t ← t.setLink p false (m.link true)
          let t ← t.setLink q true (some p)
          rbDestroyLoop t fuel (some q)

/-- Every node is turned up at most once before it is freed. -/
def rbDestroy (t : RbTable α) : Except RbFault (List α × RbTable α) :=
  rbDestroyLoop t (2 * t.next) t.root

/-- The nodes that are not on the way down along the right links. -/
def offSpine : RbTree α → ℕ
  | .nil => 0
  | .node _ l _ r => l.size + offSpine r

theorem offSpine_le (u : RbTree α) : offSpine u ≤ u.size := by
  induction u with
  | nil => exact le_refl 0
  | node c l x r ihLeft ihRight =>
      rw [offSpine, RedBlack.Tree.size]
      omega

theorem rbDestroyLoop_spec {u : RbTree α} (stored : Stored t.mem u) (nodup : (addresses u).Nodup)
    {fuel : ℕ} (enough : u.size + offSpine u ≤ fuel) :
    ∃ t', rbDestroyLoop t fuel (rootPtr u) = .ok (items u, t') ∧
      (∀ a ∈ addresses u, t'.mem a = none) ∧ ∀ a, a ∉ addresses u → t'.mem a = t.mem a := by
  induction fuel generalizing t u with
  | zero =>
      cases u with
      | nil => exact ⟨t, rfl, fun a member => absurd member List.not_mem_nil, fun a _ => rfl⟩
      | node c l x r =>
          rw [RedBlack.Tree.size] at enough
          omega
  | succ fuel ih =>
      rcases u with _ | ⟨c, _ | ⟨c', l, y, m⟩, x, r⟩
      · exact ⟨t, rfl, fun a member => absurd member List.not_mem_nil, fun a _ => rfl⟩
      · rcases stored with ⟨here, -, right⟩
        have parts : ∀ a, a ∈ addresses (.node c .nil x r) ↔ a = x.1 ∨ a ∈ addresses r := by
          simp [addresses, RedBlack.Tree.inorder]
        have apart : x.1 ∉ addresses r ∧ (addresses r).Nodup := List.nodup_cons.mp nodup
        have enough' : r.size + offSpine r ≤ fuel := by
          simp only [offSpine, RedBlack.Tree.size] at enough
          omega
        have right' : Stored (t.free x.1).mem r := (stored_update apart.1).mpr right
        rcases ih right' apart.2 enough' with ⟨t', rest, gone, kept⟩
        refine ⟨t', ?_, fun a member => ?_, fun a out => ?_⟩
        · rw [rootPtr_node, rbDestroyLoop, RbTable.node_eq here, ok_bind]
          simp only [rootPtr_nil, links_same, links_right, rest, ok_bind, pure_eq_ok]
          simp [items, RedBlack.Tree.inorder]
        · rcases (parts a).mp member with rfl | member
          · rw [kept _ apart.1]
            exact Function.update_self _ _ _
          · exact gone a member
        · rw [parts, not_or] at out
          rw [kept a out.2]
          exact Function.update_of_ne out.1 _ _
      · rcases stored with ⟨here, ⟨here', left, middle⟩, right⟩
        -- The tree with the left child turned up.
        have turned : (RedBlack.Tree.node c' l y (.node c m x r)).inorder =
            (RedBlack.Tree.node c (.node c' l y m) x r).inorder := by
          simp [RedBlack.Tree.inorder]
        have nodup' : (addresses (.node c' l y (.node c m x r))).Nodup := by
          rwa [addresses_congr turned]
        have nodup₂ : (addresses (plug [⟨true, c', y, l⟩, ⟨false, c, x, r⟩] m)).Nodup := nodup
        rcases innermost_apart nodup₂ with ⟨yl, yAbove, ym⟩
        rcases second_apart nodup₂ with ⟨xy, xl, xr, -, xm⟩
        simp only [pathAddresses, List.mem_cons, List.append_nil, not_or] at yAbove
        dsimp only at *
        have enough' : (RedBlack.Tree.node c' l y (.node c m x r)).size +
            offSpine (.node c' l y (.node c m x r)) ≤ fuel := by
          simp only [offSpine, RedBlack.Tree.size] at enough ⊢
          omega
        have stored' : Stored ((t.write x.1 ⟨links false (rootPtr m) (rootPtr r), x.2, c⟩).write y.1
            ⟨links false (rootPtr l) (some x.1), y.2, c'⟩).mem (.node c' l y (.node c m x r)) := by
          simp [Stored, RbTable.mem_write, stored_update, *]
        rcases ih stored' nodup' enough' with ⟨t', rest, gone, kept⟩
        rw [addresses_congr turned] at gone kept
        refine ⟨t', ?_, gone, fun a out => ?_⟩
        · rw [rootPtr_node, rbDestroyLoop, RbTable.node_eq here, ok_bind]
          simp only [links_same, rootPtr_node, RbTable.node_eq here', links_right, RbTable.setLink,
            RbTable.modify, RbTable.node_eq here, ok_bind, pure_eq_ok, update_links_same,
            RbTable.node_write_ne, ne_eq, yAbove.1, not_false_eq_true, update_links_right]
          rw [rootPtr_node] at rest
          rw [rest]
          simp [items, turned]
        · rw [kept a out]
          have apart : a ≠ y.1 ∧ a ≠ x.1 := by
            simp only [mem_addresses_node, not_or] at out
            exact ⟨out.2.1.1, out.1⟩
          rw [RbTable.mem_write, Function.update_of_ne apart.1, RbTable.mem_write,
            Function.update_of_ne apart.2]

/-- `rb_destroy` gives every item to the callback, in order, and leaves nothing allocated. -/
theorem rbDestroy_spec {κ : Type} [LinearOrder κ] {key : α → κ} {u : RbTree α}
    (represents : Represents key t u) :
    ∃ t', rbDestroy t = .ok (items u, t') ∧ ∀ a, t'.mem a = none := by
  have root := represents.zipped.root
  rw [topPtr] at root
  have few := offSpine_le u
  have room := represents.size_le
  have enough : u.size + offSpine u ≤ 2 * t.next := by omega
  rcases rbDestroyLoop_spec represents.zipped.below represents.zipped.nodup enough with
    ⟨t', run, gone, kept⟩
  refine ⟨t', ?_, fun a => ?_⟩
  · rw [rbDestroy, root, run]
  · by_cases inside : a ∈ addresses u
    · exact gone a inside
    · rw [kept a inside]
      by_contra live
      exact inside ((represents.live a).mp live)

/-! ## After a run -/

section Run

variable {κ : Type} [LinearOrder κ] [DecidableEq α] {compare : α → α → ℤ} {key : α → κ}

/--
Whatever was done to a table, a traversal visits the items of the map in the order of their keys, and
each of them once.
-/
theorem rbRun_traverse (compares : Compares compare key) (calls : List (RbCall α))
    (fits : (itemMap key).Fits Roomy (fun _ => none) calls) {answers : List (Option α)}
    (run : Runs.run (rbCall compare) rbCreate calls = .ok (t, answers)) :
    ∃ visited, traverseLoop true compare t (t.count + 1) (rbTInit t) = .ok visited ∧
      (visited.Pairwise fun x y => key x < key y) ∧
      ∀ item, item ∈ visited ↔ (itemMap key).after (fun _ => none) calls (key item) = some item := by
  rcases rbRun_represents compares fits run with ⟨u, represents, same, small⟩
  refine ⟨items u, rbTraverse_spec compares represents small, represents.sorted_items, fun item => ?_⟩
  rw [represents.mem_items, same]

/-- Three items that were put in out of order. -/
theorem rbRun_traverse_example :
    ∃ t visited, traverseLoop true (fun x y : ℕ × ℕ => (x.1 : ℤ) - y.1) t (t.count + 1) (rbTInit t) =
        .ok visited ∧
      (visited.Pairwise fun x y => x.1 < y.1) ∧
      ∀ item : ℕ × ℕ, item ∈ visited ↔ (itemMap Prod.fst).after (fun _ => none)
        [.replace (2, 0), .replace (1, 5), .replace (3, 3)] item.1 = some item := by
  have compares : Compares (fun x y : ℕ × ℕ => (x.1 : ℤ) - y.1) Prod.fst :=
    ⟨fun x y => by omega, fun x y => by omega⟩
  have fits : (itemMap (Prod.fst : ℕ × ℕ → ℕ)).Fits Roomy (fun _ => none)
      [.replace (2, 0), .replace (1, 5), .replace (3, 3)] :=
    fits_of_short (fun call => call.item.1) itemMap_effect_of_ne (by decide)
  rcases (rbCall_simulates compares).run rbCreate_implements fits with ⟨t, run, -⟩
  exact ⟨t, rbRun_traverse compares _ fits run⟩

/-- Whatever was done to a table, `rb_destroy` frees every node and gives every item away once. -/
theorem rbRun_destroy (compares : Compares compare key) (calls : List (RbCall α))
    (fits : (itemMap key).Fits Roomy (fun _ => none) calls) {answers : List (Option α)}
    (run : Runs.run (rbCall compare) rbCreate calls = .ok (t, answers)) :
    ∃ destroyed t', rbDestroy t = .ok (destroyed, t') ∧ (∀ a, t'.mem a = none) ∧
      (destroyed.Pairwise fun x y => key x < key y) ∧
      ∀ item, item ∈ destroyed ↔ (itemMap key).after (fun _ => none) calls (key item) = some item := by
  rcases rbRun_represents compares fits run with ⟨u, represents, same, -⟩
  rcases rbDestroy_spec represents with ⟨t', destroyed, freed⟩
  refine ⟨items u, t', destroyed, freed, represents.sorted_items, fun item => ?_⟩
  rw [represents.mem_items, same]

/-- A table from which an item was deleted. -/
theorem rbRun_destroy_example :
    ∃ t destroyed t', rbDestroy t = .ok (destroyed, t') ∧ (∀ a, t'.mem a = none) ∧
      (destroyed.Pairwise fun x y => x.1 < y.1) ∧
      ∀ item : ℕ × ℕ, item ∈ destroyed ↔ (itemMap Prod.fst).after (fun _ => none)
        [.replace (2, 0), .replace (1, 5), .delete (2, 9)] item.1 = some item := by
  have compares : Compares (fun x y : ℕ × ℕ => (x.1 : ℤ) - y.1) Prod.fst :=
    ⟨fun x y => by omega, fun x y => by omega⟩
  have fits : (itemMap (Prod.fst : ℕ × ℕ → ℕ)).Fits Roomy (fun _ => none)
      [.replace (2, 0), .replace (1, 5), .delete (2, 9)] :=
    fits_of_short (fun call => call.item.1) itemMap_effect_of_ne (by decide)
  rcases (rbCall_simulates compares).run rbCreate_implements fits with ⟨t, run, -⟩
  exact ⟨t, rbRun_destroy compares _ fits run⟩

end Run

end Treedb
