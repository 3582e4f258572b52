import Treedb.Branch

/-!
# Views (`vbranch.h`, `vbranch.c`, `view.h`, `view.c`)

A view is a second tree that overlays part of the branch tree; its nodes are vbranches. A vbranch
belongs to one view for its whole life, so the view is part of its address. As with branches, cells
are never reused and `free` leaves their contents in place: a dangling pointer reads what was stored
last. A view is made at the address `viewNext`. The model counts it up, but `calloc` may answer the
address of a view that was freed, so what a new view shows is stated for every value of it.

Every branch lists the vbranches that stand for it, in the order in which they were attached. This
list is a field of `data_t` in the source; here it is kept with the views, so that a function that
edits views cannot touch the tree. The functions below read the tree `t` and change the overlay `o`.
-/

namespace Treedb

/-- The address of a view. -/
abbrev ViewPtr := ℕ

/-- The address of a vbranch: the view it was made for, and a cell number. -/
structure VbranchPtr where
  view : ViewPtr
  cell : ℕ
  deriving DecidableEq, Repr

/-- `vbranch_t`; `child_n` is the length of the array `child_list`. -/
structure Vbranch where
  branch : BranchPtr := 0
  visible : Bool := false
  parent : Option VbranchPtr := none
  childList : List VbranchPtr := []
  deriving DecidableEq, Repr

instance : Inhabited Vbranch :=
  ⟨{}⟩

/-- `view_t`. -/
structure View where
  id : UInt32
  vbranch : VbranchPtr
  vbranchIndex : UInt64 → Option VbranchPtr

/-- What `vbranch_to_json` prints of a vbranch and of those below it. -/
inductive VbranchJson
  | node (id : UInt64) (text : CString) (branchN : UInt32) (childN : UInt16) (visible : Bool)
      (documentId : Option UInt64) (childs : List VbranchJson)
  deriving Repr

/-- The messages queued for the clients. Ids are sent as hexadecimal strings. -/
inductive Message
  | mapInit (viewId : UInt32) (reqId : UInt64) (map : VbranchJson)
  | mapInsert (viewId : UInt32) (parentBranchId : UInt64) (branchPos : ℕ) (branch : VbranchJson)
  | mapCount (viewId : UInt32) (branchId : UInt64) (n : ℤ)
  | mapMove (viewId : UInt32) (newParentId branchId : UInt64) (branchPos : ℤ) (retry : Bool)
  | mapDelete (viewId : UInt32) (branchId : UInt64)
  | mapUpdate (viewId : UInt32) (branchId : UInt64) (branchText : CString)
      (documentId : Option UInt64)
  | mapRemoveMark (mapId : UInt32) (noteId branchId : UInt64)
  | ack
  deriving Repr

/-- The views of a map, and the queue of outgoing messages. -/
structure Overlay where
  vmem : VbranchPtr → Vbranch
  /-- The next cell number to hand out. -/
  vnext : ℕ
  views : ViewPtr → View
  /-- The address at which the next view is made. -/
  viewNext : ViewPtr
  viewIndex : UInt32 → Option ViewPtr
  /-- `data->vbranch_list` of every branch. -/
  vbranchList : BranchPtr → List VbranchPtr
  outQ : List Message

namespace Overlay

/-- `vb->parent`. -/
def vparent (o : Overlay) (vb : VbranchPtr) : Option VbranchPtr :=
  (o.vmem vb).parent

/-- The array `vb->child_list`. -/
def vchildren (o : Overlay) (vb : VbranchPtr) : List VbranchPtr :=
  (o.vmem vb).childList

/-- Change one vbranch in place. -/
def modify (o : Overlay) (vb : VbranchPtr) (f : Vbranch → Vbranch) : Overlay :=
  { o with vmem := Function.update o.vmem vb (f (o.vmem vb)) }

/-- `queue_push_right(map->out_q, ..)`. -/
def push (o : Overlay) (msg : Message) : Overlay :=
  { o with outQ := o.outQ ++ [msg] }

end Overlay

/-! ## `vbranch.c` -/

/-- `vbranch_index_put`: the vbranch is stored under the id of its branch. -/
def vbranchIndexPut (t : Tree) (o : Overlay) (view : ViewPtr) (vb : VbranchPtr) : Overlay :=
  { o with
    views := Function.update o.views view
      { o.views view with
        vbranchIndex := Function.update (o.views view).vbranchIndex
          (t.mem (o.vmem vb).branch).id (some vb) } }

/-- `vbranch_index_get`. -/
def vbranchIndexGet (o : Overlay) (view : ViewPtr) (id : UInt64) : Option VbranchPtr :=
  (o.views view).vbranchIndex id

/-- The position is that of the real branch, in the tree as it is at the time of the call. -/
def vbranchAdd (t : Tree) (o : Overlay) (current parent : VbranchPtr) : Except Fault Overlay := do
  let o := o.modify current fun vb => { vb with parent := some parent }
  let childs ← childsWith (o.vmem parent).childList.length (o.vmem parent).childList current
    (branchGetPos t (o.vmem current).branch)
  return o.modify parent fun vb => { vb with childList := childs }

/-- `vbranch_detach`. -/
def vbranchDetach (o : Overlay) (vb : VbranchPtr) : Overlay :=
  match (o.vmem vb).parent with
  | none => o
  | some pb =>
      let o := o.modify pb fun x =>
        { x with
          childList := (x.childList.filter fun c => c ≠ vb).take (x.childList.length - 1) }
      o.modify vb fun x => { x with parent := none }

/-- `branch_attach_vbranch`. -/
def branchAttachVbranch (o : Overlay) (b : BranchPtr) (vb : VbranchPtr) : Overlay :=
  { o.modify vb fun x => { x with branch := b } with
    vbranchList := Function.update o.vbranchList b (o.vbranchList b ++ [vb]) }

/-- The vbranch is freed by the only caller right after this. -/
def branchDetachVbranch (o : Overlay) (vb : VbranchPtr) : Overlay :=
  let b := (o.vmem vb).branch
  { o with
    vbranchList := Function.update o.vbranchList b
      (((o.vbranchList b).filter fun x => x ≠ vb).take ((o.vbranchList b).length - 1)) }

/-- `vbranch_new`, with the fields that are set before the vbranch is used. -/
def vbranchNew (o : Overlay) (view : ViewPtr) (vb : Vbranch) : Overlay × VbranchPtr :=
  ({ o with vmem := Function.update o.vmem ⟨view, o.vnext⟩ vb, vnext := o.vnext + 1 },
    ⟨view, o.vnext⟩)

/-! ## `view.c` -/

/-- `view_index_put`. -/
def viewIndexPut (o : Overlay) (view : ViewPtr) : Overlay :=
  { o with viewIndex := Function.update o.viewIndex (o.views view).id (some view) }

/-- `view_index_get`. -/
def viewIndexGet (o : Overlay) (id : UInt32) : Option ViewPtr :=
  o.viewIndex id

/-- `view_index_remove`. -/
def viewIndexRemove (o : Overlay) (id : UInt32) : Overlay :=
  { o with viewIndex := Function.update o.viewIndex id none }

/-- A view with an empty index; its root vbranch is set by the caller. -/
def viewCreate (o : Overlay) (id : UInt32) (root : VbranchPtr) : Overlay × ViewPtr :=
  let view := o.viewNext
  let o :=
    { o with
      views := Function.update o.views view
        { id := id, vbranch := root, vbranchIndex := fun _ => none }
      viewNext := o.viewNext + 1 }
  (viewIndexPut o view, view)

/-- The search for the vbranch of a view in the list of a branch; the first match counts. -/
def viewGetVbranch (o : Overlay) (view : ViewPtr) (b : BranchPtr) : Option VbranchPtr :=
  (o.vbranchList b).find? fun vb => vb.view = view

/-- The recursion of `view_destroy_vbranch`, to the given depth. -/
def viewDestroyVbranch : ℕ → Overlay → VbranchPtr → Overlay
  | 0, o, _ => o
  | depth + 1, o, vb =>
      branchDetachVbranch ((o.vmem vb).childList.foldl (viewDestroyVbranch depth) o) vb

/--
`view_destroy`: what the root vbranch reaches is detached from the branches. A vbranch that the root
does not reach stays attached, and its view is gone.
-/
def viewDestroy (o : Overlay) (view : ViewPtr) : Overlay :=
  let o := viewDestroyVbranch (o.vnext + 1) o (o.views view).vbranch
  viewIndexRemove o (o.views view).id

/-- A new vbranch of `view` for the branch `b`, put into the index and attached. -/
def addVbranch (t : Tree) (o : Overlay) (view : ViewPtr) (vb : Vbranch) : Overlay × VbranchPtr :=
  let new := vbranchNew o view vb
  let o := vbranchIndexPut t new.1 view new.2
  (branchAttachVbranch o vb.branch new.2, new.2)

/-- One round of the loop in `expand`: keep the vbranch that stands for `b`, or make one. -/
def expandChild (t : Tree) (vb : VbranchPtr) (old : List VbranchPtr)
    (s : Overlay × List VbranchPtr) (b : BranchPtr) : Overlay × List VbranchPtr :=
  match old.find? fun c => (s.1.vmem c).branch = b with
  | some existing => (s.1, s.2 ++ [existing])
  | none =>
      let new := addVbranch t s.1 vb.view { branch := b, parent := some vb }
      (new.1, s.2 ++ [new.2])

/-- `expand`: the child list of `vb` is made that of its branch, with the vbranches it has. -/
def expand (t : Tree) (o : Overlay) (vb : VbranchPtr) : Overlay :=
  let b := t.mem (o.vmem vb).branch
  let s := (b.childList.take b.childN.toNat).foldl (expandChild t vb (o.vmem vb).childList) (o, [])
  s.1.modify vb fun x => { x with childList := s.2 }

/-- `view_expand` with `levels` levels left, three at level 0. -/
def viewExpandLoop (t : Tree) : ℕ → Overlay → VbranchPtr → Overlay
  | 0, o, _ => o
  | levels + 1, o, vb =>
      let o :=
        if (o.vmem vb).childList.length = (t.mem (o.vmem vb).branch).childN.toNat then o
        else expand t o vb
      (o.vmem vb).childList.foldl (viewExpandLoop t levels) o

/-- `view_expand`. -/
def viewExpand (t : Tree) (o : Overlay) (vb : VbranchPtr) (level : ℕ) : Overlay :=
  viewExpandLoop t (3 - level) o vb

/-- Make `vb` the parent of the vbranches in `list`. -/
def setParents (o : Overlay) (vb : VbranchPtr) (list : List VbranchPtr) : Overlay :=
  list.foldl (fun o c => o.modify c fun x => { x with parent := some vb }) o

/--
One round of the sibling loop in `view_expand_to`. The list built in the previous iteration of the
outer loop is handed to the vbranch made for `b`.
-/
def expandSibling (t : Tree) (view : ViewPtr) (b : BranchPtr)
    (s : Overlay × Option (List VbranchPtr) × List VbranchPtr) (cur : BranchPtr) :
    Overlay × Option (List VbranchPtr) × List VbranchPtr :=
  match s with
  | (o, some prev, list) =>
      if cur = b then
        let new := addVbranch t o view { branch := cur, childList := prev }
        (setParents new.1 new.2 prev, none, list ++ [new.2])
      else
        let new := addVbranch t o view { branch := cur }
        (new.1, some prev, list ++ [new.2])
  | (o, none, list) =>
      let new := addVbranch t o view { branch := cur }
      (new.1, none, list ++ [new.2])

/--
The loop of `view_expand_to`, at the branch `b`; `prev` is `prev_child_list`. It answers the
overlay and the vbranch at which the climb ended.
-/
def expandToLoop (t : Tree) (view : ViewPtr) :
    ℕ → Overlay → BranchPtr → Option (List VbranchPtr) → Except Fault (Overlay × Option VbranchPtr)
  | 0, o, _, _ => .ok (o, none)
  | fuel + 1, o, b, prev =>
      match viewGetVbranch o view b with
      | some found =>
          match prev with
          | none => .ok (o, some found)
          | some list =>
              let o := o.modify found fun x => { x with childList := list }
              .ok (setParents o found list, some found)
      | none =>
          match (t.mem b).parent with
          | none => .error .nullDeref
          | some pb =>
              let s := ((t.mem pb).childList.take (t.mem pb).childN.toNat).foldl
                (expandSibling t view b) (o, prev, [])
              expandToLoop t view fuel s.1 pb (some s.2.2)

/-- The last step of `view_expand_to`: new vbranches for all children of `b`. -/
def expandChildren (t : Tree) (o : Overlay) (view : ViewPtr) (b : BranchPtr) : Overlay :=
  if (t.mem b).childN = 0 then o
  else
    match viewGetVbranch o view b with
    | none => o
    | some vb =>
        let s := ((t.mem b).childList.take (t.mem b).childN.toNat).foldl
          (fun (s : Overlay × List VbranchPtr) c =>
            let new := addVbranch t s.1 view { branch := c, parent := some vb }
            (new.1, s.2 ++ [new.2])) (o, [])
        s.1.modify vb fun x => { x with childList := s.2 }

/-- The part of `view_expand_to` that climbs; the root needs no climb. -/
def expandPath (t : Tree) (o : Overlay) (view : ViewPtr) (b : BranchPtr) :
    Except Fault (Overlay × Option VbranchPtr) :=
  match (t.mem b).parent with
  | none => .ok (o, none)
  | some _ => expandToLoop t view (t.next + 1) o b none

/-- `view_expand_to`: the path to `b` is shown, and on demand the children of `b`. -/
def viewExpandTo (t : Tree) (o : Overlay) (view : ViewPtr) (b : BranchPtr) (withChildren : Bool) :
    Except Fault (Overlay × Option VbranchPtr) := do
  let s ← expandPath t o view b
  return (if withChildren then expandChildren t s.1 view b else s.1, s.2)

/-! ## Messages and endpoints (`map.c`) -/

/-- The recursion of `vbranch_to_json`, to the given depth. -/
def vbranchToJsonLoop (t : Tree) (o : Overlay) : ℕ → VbranchPtr → VbranchJson
  | 0, vb =>
      let b := t.mem (o.vmem vb).branch
      .node b.id b.text b.totalBranchN b.childN (o.vmem vb).visible
        (if b.noteId ≠ 0 then some b.noteId else none) []
  | depth + 1, vb =>
      let b := t.mem (o.vmem vb).branch
      .node b.id b.text b.totalBranchN b.childN (o.vmem vb).visible
        (if b.noteId ≠ 0 then some b.noteId else none)
        ((o.vmem vb).childList.map (vbranchToJsonLoop t o depth))

/-- `vbranch_to_json`. -/
def vbranchToJson (t : Tree) (o : Overlay) (vb : VbranchPtr) : VbranchJson :=
  vbranchToJsonLoop t o o.vnext vb

/-- The climb that looks for the nearest branch, from `b` upwards, that a view shows. -/
def endpoint (t : Tree) (o : Overlay) (view : ViewPtr) (b : BranchPtr) :
    Option (BranchPtr × VbranchPtr) :=
  (t.chain b).findSome? fun b => (viewGetVbranch o view b).map fun vb => (b, vb)

/-- The `mapInsert` that sends a client the subtree of a vbranch that was just expanded. -/
def expandedMessage (t : Tree) (o : Overlay) (vb : VbranchPtr) (branchPos : ℕ) : Message :=
  .mapInsert (o.views vb.view).id (t.mem (o.vmem vb).branch).id branchPos (vbranchToJson t o vb)

end Treedb
