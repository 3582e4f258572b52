import Treedb.Outcome
import Treedb.RedBlack.Tree

/-!
# Red-black tables (`lib/rb.h`, `lib/rb.c`)

All indexes of the server are tables of this library. A node is a cell of a memory; a cell that is
not allocated, or was freed, represents nothing, and to touch it is a fault. The library casts the
address of the field `rb_root` to that of a node, so that the root pointer is the left link of a
node without colour or data: `Place` tells this address from that of a node, and every other use of
it is a fault too.

The arrays `pa` and `da` of a function are one stack of places and sides. They have room for
`RB_MAX_HEIGHT` entries; a push beyond that is a fault. Where the source repeats a piece of code
with left and right exchanged, the piece is written once, for a side `d` that is `false` (0) in the
first copy and `true` (1) in the second.

Allocation does not fail. The counters `rb_count` and `rb_generation` do not overflow.
-/

namespace Treedb

open RedBlack (Color)

/-- The address of a node. -/
abbrev NodePtr := ℕ

/-- Ways in which the library leaves the domain where it has a meaning. -/
inductive RbFault
  | nullDeref
  /-- A cell that represents no node is touched. -/
  | invalidPointer
  /-- `&tree->rb_root` is used for more than its left link. -/
  | notANode
  /-- An array of `RB_MAX_HEIGHT` entries is written past its end, or an `assert` finds it full. -/
  | stackOverflow
  /-- A loop without bound does not end. -/
  | endless
  deriving DecidableEq, Repr

/-- `struct rb_node`. -/
structure RbNode (α : Type) where
  link : Bool → Option NodePtr
  data : α
  color : Color

/-- `struct rb_table`, with the memory of its nodes. -/
structure RbTable (α : Type) where
  root : Option NodePtr
  mem : NodePtr → Option (RbNode α)
  /-- The next address to hand out. -/
  next : NodePtr
  count : ℕ
  generation : ℕ

/-- What a variable of type `struct rb_node *` that is not null points to. -/
inductive Place
  | root
  | node (p : NodePtr)
  deriving DecidableEq, Repr

/-- The used part of `pa` and `da`, the last entry first. -/
abbrev RbStack := List (Place × Bool)

/-- `RB_MAX_HEIGHT`. -/
def rbMaxHeight : ℕ :=
  48

namespace RbTable

variable {α : Type}

/-- Follow a pointer to a node. -/
def node (t : RbTable α) (p : NodePtr) : Except RbFault (RbNode α) :=
  match t.mem p with
  | some n => .ok n
  | none => .error .invalidPointer

/-- The table after `n` was written to the cell `p`. -/
def write (t : RbTable α) (p : NodePtr) (n : RbNode α) : RbTable α :=
  { t with mem := Function.update t.mem p (some n) }

/-- `libavl_malloc` of a node, with what is written to it first. -/
def alloc (t : RbTable α) (n : RbNode α) : RbTable α :=
  { t.write t.next n with next := t.next + 1 }

/-- `libavl_free`. -/
def free (t : RbTable α) (p : NodePtr) : RbTable α :=
  { t with mem := Function.update t.mem p none }

/-- Change one node in place. -/
def modify (t : RbTable α) (p : NodePtr) (f : RbNode α → RbNode α) :
    Except RbFault (RbTable α) := do
  let n ← t.node p
  return t.write p (f n)

/-- Colour a node. -/
def setColor (t : RbTable α) (p : NodePtr) (c : Color) : Except RbFault (RbTable α) :=
  t.modify p fun n => { n with color := c }

/-- Set a link of a node. -/
def setLink (t : RbTable α) (p : NodePtr) (d : Bool) (q : Option NodePtr) :
    Except RbFault (RbTable α) :=
  t.modify p fun n => { n with link := Function.update n.link d q }

/-- `p->rb_link[d]` for a place of the stack. -/
def linkAt (t : RbTable α) : Place → Bool → Except RbFault (Option NodePtr)
  | .root, false => .ok t.root
  | .root, true => .error .notANode
  | .node p, d => (t.node p).map fun n => n.link d

/-- `p->rb_link[d] = q` for a place of the stack. -/
def setLinkAt (t : RbTable α) (q : Option NodePtr) : Place × Bool → Except RbFault (RbTable α)
  | (.root, false) => .ok { t with root := q }
  | (.root, true) => .error .notANode
  | (.node p, d) => t.setLink p d q

/-- `y != NULL && y->rb_color == RB_RED`. -/
def isRed (t : RbTable α) : Option NodePtr → Except RbFault Bool
  | none => .ok false
  | some y => (t.node y).map fun n => decide (n.color = .red)

end RbTable

variable {α : Type}

/-- The node that a pointer points to. -/
def deref : Option NodePtr → Except RbFault NodePtr
  | some p => .ok p
  | none => .error .nullDeref

/-- A place that has to be a node. -/
def Place.ptr : Place → Except RbFault NodePtr
  | .node p => .ok p
  | .root => .error .notANode

/-- Of a stack whose entry is written next: whether the arrays have room for it. -/
def pushed (stack : RbStack) (entry : Place × Bool) : Except RbFault RbStack :=
  if stack.length < rbMaxHeight then .ok (entry :: stack) else .error .stackOverflow

/-- `rb_create`. -/
def rbCreate : RbTable α where
  root := none
  mem := fun _ => none
  next := 0
  count := 0
  generation := 0

/-- The loop of `rb_find`, which has no bound. -/
def rbFindLoop (compare : α → α → ℤ) (t : RbTable α) (item : α) :
    ℕ → Option NodePtr → Except RbFault (Option α)
  | _, none => .ok none
  | 0, some _ => .error .endless
  | fuel + 1, some p => do
      let n ← t.node p
      let cmp := compare item n.data
      if cmp < 0 then rbFindLoop compare t item fuel (n.link false)
      else if cmp > 0 then rbFindLoop compare t item fuel (n.link true)
      else return some n.data

/-- No way down is longer than the number of addresses handed out. -/
def rbFind (compare : α → α → ℤ) (t : RbTable α) (item : α) : Except RbFault (Option α) :=
  rbFindLoop compare t item t.next t.root

/-! ## `rb_probe` -/

/-- The way down: the stack, and the node with an equal item if there is one. -/
def probeDescend (compare : α → α → ℤ) (t : RbTable α) (item : α) :
    ℕ → RbStack → Option NodePtr → Except RbFault (RbStack × Option NodePtr)
  | _, stack, none => .ok (stack, none)
  | fuel, stack, some p => do
      let n ← t.node p
      let cmp := compare item n.data
      if cmp = 0 then return (stack, some p)
      else
        let stack ← pushed stack (.node p, decide (cmp > 0))
        match fuel with
        | 0 => .error .endless
        | fuel + 1 => probeDescend compare t item fuel stack (n.link (decide (cmp > 0)))

/--
The rotations of `rb_probe`. The stack ends with `x` and `d`, then `g`, whose side `d'` the code
branches on, and then `top`.
-/
def probeRotate (t : RbTable α) (x : NodePtr) (d : Bool) (g : NodePtr) (d' : Bool)
    (top : Place × Bool) : Except RbFault (RbTable α) := do
  let (t, y) ←
    if d = d' then pure (t, x)
    else do
      let y ← deref ((← t.node x).link !d')
      let t ← t.setLink x (!d') ((← t.node y).link d')
      let t ← t.setLink y d' (some x)
      let t ← t.setLink g d' (some y)
      pure (t, y)
  let t ← t.setColor g .red
  let t ← t.setColor y .black
  let t ← t.setLink g d' ((← t.node y).link !d')
  let t ← t.setLink y (!d') (some g)
  t.setLinkAt (some y) top

/-- `while (k >= 3 && pa[k - 1]->rb_color == RB_RED)`. -/
def probeLoop (t : RbTable α) : RbStack → Except RbFault (RbTable α)
  | (p, d) :: (g, d') :: top :: stack => do
      let p ← p.ptr
      if (← t.node p).color = .red then do
        let g ← g.ptr
        let y := (← t.node g).link !d'
        if ← t.isRed y then do
          let t ← t.setColor p .black
          let t ← t.setColor (← deref y) .black
          let t ← t.setColor g .red
          probeLoop t (top :: stack)
        else probeRotate t p d g d' top
      else return t
  | _ => .ok t

/-- The new table, and the node whose field `rb_data` the answer points to. -/
def rbProbe (compare : α → α → ℤ) (t : RbTable α) (item : α) :
    Except RbFault (RbTable α × NodePtr) := do
  let (stack, found) ← probeDescend compare t item rbMaxHeight [(.root, false)] t.root
  match found with
  | some p => return (t, p)
  | none => do
      let n := t.next
      let t := t.alloc { link := fun _ => none, data := item, color := .red }
      let t ←
        match stack with
        | [] => .error .notANode
        | entry :: _ => t.setLinkAt (some n) entry
      let t := { t with count := t.count + 1, generation := t.generation + 1 }
      let t ← probeLoop t stack
      let root ← deref t.root
      let t ← t.setColor root .black
      return (t, n)

/-- What `*p` is after `rb_probe`, compared with the item as a pointer. -/
def probed [DecidableEq α] (t : RbTable α) (p : NodePtr) (item : α) : Except RbFault (Option α) := do
  let n ← t.node p
  return if n.data = item then none else some n.data

/-- `rb_insert`: the item in the table if it is another one. -/
def rbInsert [DecidableEq α] (compare : α → α → ℤ) (t : RbTable α) (item : α) :
    Except RbFault (RbTable α × Option α) := do
  let (t, p) ← rbProbe compare t item
  return (t, ← probed t p item)

/-- `rb_replace`: the item takes the place of the one in the table, which is the answer. -/
def rbReplace [DecidableEq α] (compare : α → α → ℤ) (t : RbTable α) (item : α) :
    Except RbFault (RbTable α × Option α) := do
  let (t, p) ← rbProbe compare t item
  match ← probed t p item with
  | none => return (t, none)
  | some r => do
      let t ← t.modify p fun n => { n with data := item }
      return (t, some r)

/-! ## `rb_delete` -/

/-- The way down from a place: the stack, and the node with an equal item. -/
def deleteDescend (compare : α → α → ℤ) (t : RbTable α) (item : α) :
    ℕ → RbStack → Place → Bool → Except RbFault (Option (RbStack × NodePtr))
  | 0, _, _, _ => .error .stackOverflow
  | fuel + 1, stack, p, dir => do
      let stack ← pushed stack (p, dir)
      match ← t.linkAt p dir with
      | none => return none
      | some p => do
          let cmp := compare item (← t.node p).data
          if cmp = 0 then return some (stack, p)
          else deleteDescend compare t item fuel stack (.node p) (decide (cmp > 0))

/--
The way down to the left from `r`, whose left link is not null: the entries for the stack, the last
node with a left link, and the node `s` that link points to. `height` entries are in use below.
-/
def deleteSpine (t : RbTable α) (height : ℕ) :
    ℕ → RbStack → NodePtr → Except RbFault (RbStack × NodePtr × NodePtr)
  | 0, _, _ => .error .stackOverflow
  | fuel + 1, spine, r =>
      if height + spine.length < rbMaxHeight then do
        let spine := (.node r, false) :: spine
        let s ← deref ((← t.node r).link false)
        match (← t.node s).link false with
        | none => return (spine, r, s)
        | some _ => deleteSpine t height fuel spine s
      else .error .stackOverflow

/-- Exchange the colours of two nodes. -/
def swapColors (t : RbTable α) (r p : NodePtr) : Except RbFault (RbTable α) := do
  let c := (← t.node r).color
  let t ← t.setColor r (← t.node p).color
  t.setColor p c

/-- Unlink `p`, which the last entry of the stack leads to. -/
def deleteUnlink (t : RbTable α) (stack : RbStack) (p : NodePtr) :
    Except RbFault (RbTable α × RbStack) :=
  match stack with
  | [] => .error .notANode
  | top :: _ => do
      match (← t.node p).link true with
      | none => do
          let t ← t.setLinkAt ((← t.node p).link false) top
          return (t, stack)
      | some r =>
          match (← t.node r).link false with
          | none => do
              let t ← t.setLink r false ((← t.node p).link false)
              let t ← swapColors t r p
              let t ← t.setLinkAt (some r) top
              return (t, ← pushed stack (.node r, true))
          | some _ => do
              -- The entry `j` is left open for `s`, which is found last.
              let (spine, r, s) ← deleteSpine t (stack.length + 1) rbMaxHeight [] r
              let t ← t.setLinkAt (some s) top
              let t ← t.setLink s false ((← t.node p).link false)
              let t ← t.setLink r false ((← t.node s).link true)
              let t ← t.setLink s true ((← t.node p).link true)
              let t ← swapColors t s p
              return (t, spine ++ (.node s, true) :: stack)

/-- The sibling `w` on the side `!d` is red: it is turned up, and the next sibling is black. -/
def deleteTurn (t : RbTable α) (p : NodePtr) (d : Bool) (w : NodePtr) (above : RbStack) :
    Except RbFault (RbTable α × RbStack × NodePtr) :=
  match above with
  | [] => .error .notANode
  | top :: _ => do
      let t ← t.setColor w .black
      let t ← t.setColor p .red
      let t ← t.setLink p (!d) ((← t.node w).link d)
      let t ← t.setLink w d (some p)
      let t ← t.setLinkAt (some w) top
      let above := (.node w, d) :: above
      let _ ← pushed above (.node p, d)
      let w ← deref ((← t.node p).link !d)
      return (t, above, w)

/-- The sibling `w` is black and has a red child; these rotations end the loop. -/
def deleteRotate (t : RbTable α) (p : NodePtr) (d : Bool) (w : NodePtr) (above : RbStack) :
    Except RbFault (RbTable α) :=
  match above with
  | [] => .error .notANode
  | top :: _ => do
      let (t, w) ←
        if ← t.isRed ((← t.node w).link !d) then pure (t, w)
        else do
          let y ← deref ((← t.node w).link d)
          let t ← t.setColor y .black
          let t ← t.setColor w .red
          let t ← t.setLink w d ((← t.node y).link !d)
          let t ← t.setLink y (!d) (some w)
          let t ← t.setLink p (!d) (some y)
          pure (t, y)
      let t ← t.setColor w (← t.node p).color
      let t ← t.setColor p .black
      let t ← t.setColor (← deref ((← t.node w).link !d)) .black
      let t ← t.setLink p (!d) ((← t.node w).link d)
      let t ← t.setLink w d (some p)
      t.setLinkAt (some w) top

/-- The loop that makes up for a black node that is missing at the end of the stack. -/
def deleteLoop : ℕ → RbTable α → RbStack → Except RbFault (RbTable α)
  | 0, _, _ => .error .endless
  | _, _, [] => .error .notANode
  | fuel + 1, t, (p, d) :: above => do
      let x ← t.linkAt p d
      if ← t.isRed x then t.setColor (← deref x) .black
      else if above = [] then return t
      else do
        let p ← p.ptr
        let w ← deref ((← t.node p).link !d)
        let (t, above, w) ←
          if (← t.node w).color = .red then deleteTurn t p d w above else pure (t, above, w)
        if !(← t.isRed ((← t.node w).link false)) && !(← t.isRed ((← t.node w).link true)) then do
          let t ← t.setColor w .red
          deleteLoop fuel t above
        else deleteRotate t p d w above

/-- A red sibling makes the stack one higher, once and in the round before the last. -/
def deleteFuel : ℕ :=
  rbMaxHeight + 2

/-- `rb_delete`: the item taken out of the table, if there is one. -/
def rbDelete (compare : α → α → ℤ) (t : RbTable α) (item : α) :
    Except RbFault (RbTable α × Option α) := do
  match ← deleteDescend compare t item rbMaxHeight [] .root false with
  | none => return (t, none)
  | some (stack, p) => do
      let item := (← t.node p).data
      let (t, stack) ← deleteUnlink t stack p
      let t ←
        if (← t.node p).color = .black then deleteLoop deleteFuel t stack else pure t
      let t := t.free p
      return ({ t with count := t.count - 1, generation := t.generation + 1 }, some item)

end Treedb
