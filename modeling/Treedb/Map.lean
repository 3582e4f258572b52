import Treedb.Io
import Treedb.View

/-!
# Operations on a map (`map.c`)

Each operation edits the tree and brings every view into line with it, queueing messages for the
clients on the way. The parts that edit the tree are separate functions on `Tree`
(`insertBranch`, `moveBranch`, `deleteBranch`); the parts that edit views read the tree and change
the overlay. An operation runs them in the order of the source.

The bookkeeping of `time_updated` is left out: nothing reads it.
-/

namespace Treedb

open RecordFile

/-- `map_t`. -/
structure Map where
  id : UInt32
  tree : Tree
  overlay : Overlay

/-! ## Insert -/

/-- The new branch, linked below `pb`, indexed and saved. -/
def insertBranch (t : Tree) (pb : BranchPtr) (branchId : UInt64) (branchPos : UInt32)
    (branchText : CString) (branchMarkId branchDocumentId : UInt64) :
    Except Fault (Tree × BranchPtr) := do
  let nb := t.next
  let t :=
    { t with
      mem := Function.update t.mem nb
        { id := branchId
          findex := t.branchN
          text := utf8slice branchText 5000
          noteId := if branchDocumentId ≠ 0 ∧ branchMarkId ≠ 0 then branchDocumentId else 0 }
      next := t.next + 1
      branchN := t.branchN + 1 }
  let t ← branchAdd t nb pb branchPos.toInt32.toInt
  let t := branchIndexPut t nb
  return (ioBranchNew t nb, nb)

/-- Expand the initiating view to the parent of the new branch, if it does not show it. -/
def insertExpand (t : Tree) (o : Overlay) (view : Option ViewPtr) (pb : BranchPtr)
    (branchPos : UInt32) : Except Fault Overlay :=
  match view with
  | none => .ok o
  | some view =>
      match viewGetVbranch o view pb with
      | some _ => .ok o
      | none => do
          let s ← viewExpandTo t o view pb true
          match s.2 with
          | none => return s.1
          | some expanded => return s.1.push (expandedMessage t s.1 expanded branchPos.toNat)

/-- A vbranch for the new branch below `pvb`, except where another view keeps `pvb` folded. -/
def insertVbranch (t : Tree) (view : Option ViewPtr) (parentBranchId : UInt64) (nb : BranchPtr)
    (branchPos : UInt32) (o : Overlay) (pvb : VbranchPtr) : Except Fault Overlay :=
  if some pvb.view ≠ view ∧ (o.vmem pvb).childList = [] then .ok o
  else do
    let new := vbranchNew o pvb.view { branch := nb, parent := some pvb }
    let o := vbranchIndexPut t new.1 pvb.view new.2
    let o ← vbranchAdd t o new.2 pvb
    let o := branchAttachVbranch o nb new.2
    if some pvb.view ≠ view then
      return o.push (.mapInsert (o.views pvb.view).id parentBranchId branchPos.toNat
        (vbranchToJson t o new.2))
    else return o

/-- Tell a view that hides the new branch about the changed counter. -/
def insertCount (t : Tree) (view : Option ViewPtr) (pb : BranchPtr) (o : Overlay)
    (vbr : VbranchPtr) : Except Fault Overlay :=
  if some vbr.view = view then .ok o
  else
    let count (start : Option BranchPtr) : Except Fault Overlay :=
      match start with
      | none => .error .nullDeref
      | some start =>
          match endpoint t o vbr.view start with
          | none => .ok o
          | some ep => .ok (o.push (.mapCount (o.views vbr.view).id (t.mem ep.1).id 1))
    match viewGetVbranch o vbr.view pb with
    | none => count (t.mem pb).parent
    | some vb =>
        if (t.mem (o.vmem vb).branch).childN ≠ 0 ∧ (o.vmem vb).childList = [] then count (some pb)
        else .ok o

/-- `insert`. An id that is in use or an unknown parent makes it answer 0. -/
def insert (m : Map) (view : Option ViewPtr) (parentBranchId branchId : UInt64)
    (branchPos : UInt32) (branchText : CString) (branchMarkId branchDocumentId : UInt64) :
    Except Fault (Map × Option BranchPtr) :=
  match branchIndexGet m.tree branchId, branchIndexGet m.tree parentBranchId with
  | some _, _ => .ok (m, none)
  | none, none => .ok (m, none)
  | none, some pb => do
      let o ← insertExpand m.tree m.overlay view pb branchPos
      let new ← insertBranch m.tree pb branchId branchPos branchText branchMarkId branchDocumentId
      let o ← (o.vbranchList pb).foldlM
        (insertVbranch new.1 view parentBranchId new.2 branchPos) o
      let o ← (o.vbranchList new.1.branch).foldlM (insertCount new.1 view pb) o
      return ({ m with tree := new.1, overlay := o }, some new.2)

/-! ## Paths -/

/-- The id made up for a missing level of a path: high word 1, low word `branch_n`. -/
def generatedId (t : Tree) : UInt64 :=
  hex2id64 (format08X 1 ++ format08X t.branchN)

/-- The first child whose text is `name`, ignoring case. -/
def findChild (t : Tree) (parent : BranchPtr) (name : CString) : Option BranchPtr :=
  ((t.mem parent).childList.take (t.mem parent).childN.toNat).find? fun c =>
    strcaseEq name (t.mem c).text

/-- The loop of `insert_path`, from the branch `parent` down. -/
def insertPathLoop : Map → BranchPtr → List CString → Except Fault (Map × Option BranchPtr)
  | m, parent, [] => .ok (m, some parent)
  | m, parent, name :: names =>
      match findChild m.tree parent name with
      | some child => insertPathLoop m child names
      | none => do
          let new ← insert m none (m.tree.mem parent).id (generatedId m.tree) 999999 name 0 0
          match new.2 with
          | none => return (new.1, none)
          | some child => insertPathLoop new.1 child names

/-- `insert_path`: the branch at the end of the path, whose missing levels are made. -/
def insertPath (m : Map) (parentId : UInt64) (names : List CString) :
    Except Fault (Map × Option BranchPtr) :=
  match if parentId ≠ 0 then branchIndexGet m.tree parentId else some m.tree.branch with
  | none => .ok (m, none)
  | some parent => insertPathLoop m parent names

/-- `insert_in_path`: a branch is inserted at the end of the path. -/
def insertInPath (m : Map) (parentId : UInt64) (names : List CString) (branchId : UInt64)
    (branchText : CString) (branchMarkId branchDocumentId : UInt64) :
    Except Fault (Map × Option BranchPtr) := do
  let path ← insertPath m parentId names
  match path.2 with
  | none => return (path.1, none)
  | some parent =>
      insert path.1 none (path.1.tree.mem parent).id branchId 999999 branchText branchMarkId
        branchDocumentId

/-! ## Update -/

/-- What a view other than the one that asked is sent of an update. -/
def updateMessage (t : Tree) (view : Option ViewPtr) (branchId : UInt64) (b : BranchPtr)
    (o : Overlay) (vb : VbranchPtr) : Overlay :=
  if some vb.view ≠ view then
    o.push (.mapUpdate (o.views vb.view).id branchId (t.mem b).text
      (if (t.mem b).noteId ≠ 0 then some (t.mem b).noteId else none))
  else o

/-- `update`: text and document of a branch. -/
def update (m : Map) (view : Option ViewPtr) (branchId : UInt64) (branchText : Option CString)
    (branchDocumentId : UInt64) : Map :=
  match branchIndexGet m.tree branchId with
  | none => m
  | some b =>
      let t := m.tree.modify b fun x =>
        { x with
          text := match branchText with
            | some s => utf8slice s 5000
            | none => x.text
          noteId := branchDocumentId }
      let o := (m.overlay.vbranchList b).foldl (updateMessage t view branchId b) m.overlay
      { m with tree := ioSaveBranchData t b, overlay := o }

/-! ## Move -/

/-- How `move` answers a request, before it changes anything. -/
inductive MoveCheck
  | refuse
  /-- The parent is stale or the move would close a cycle. -/
  | retry (b p : BranchPtr)
  | accept (b opb npb : BranchPtr)
  deriving DecidableEq, Repr

/-- The checks of `move`, in the order in which the code makes them. -/
def moveCheck (t : Tree) (newParentId oldParentId branchId : UInt64) : MoveCheck :=
  match branchIndexGet t branchId with
  | none => .refuse
  | some b =>
      match (t.mem b).parent with
      | none => .refuse
      | some opb =>
          match branchIndexGet t newParentId with
          | none => .refuse
          | some npb =>
              if (t.mem opb).id ≠ oldParentId ∨ b ∈ t.chain npb then .retry b opb
              else .accept b opb npb

/-- Detach `b`, add it below `npb`, and save the records this changed. -/
def moveBranch (t : Tree) (b opb npb : BranchPtr) (branchPos : UInt16) : Except Fault Tree := do
  let oldPos := UInt16.ofInt (branchGetPos t b)
  let t := branchDetach t b
  let t ← branchAdd t b npb branchPos.toNat
  return t.flush (ioBranchMoved t b opb oldPos)

/-- The `mapMove` that a view is sent when it shows the branch before and after. -/
def mapMoveMessage (t : Tree) (o : Overlay) (view : ViewPtr) (npb b : BranchPtr)
    (branchPos : UInt16) : Message :=
  .mapMove (o.views view).id (t.mem npb).id (t.mem b).id branchPos.toNat false

/-- What `-(total_branch_n + 1)` is in a 64-bit `json_int_t`. -/
def subtreeSize (t : Tree) (b : BranchPtr) : ℤ :=
  (t.mem b).totalBranchN.toNat + 1

/-- Re-home a shown vbranch below the vbranch of the new parent. -/
def moveVbranch (t : Tree) (o : Overlay) (view : Option ViewPtr) (vbr vb vnpb : VbranchPtr)
    (b npb : BranchPtr) (branchPos : UInt16) : Except Fault Overlay := do
  let o := vbranchDetach o vb
  let o ← vbranchAdd t o vb vnpb
  if some vbr.view ≠ view then return o.push (mapMoveMessage t o vbr.view npb b branchPos)
  else return o

/-- The branch comes out of a hidden part of the view: count it off there and show it. -/
def moveIntoView (t : Tree) (o : Overlay) (vbr vnpb : VbranchPtr) (b opb : BranchPtr)
    (newParentId : UInt64) (branchPos : UInt16) : Except Fault Overlay := do
  let o :=
    match endpoint t o vbr.view opb with
    | none => o
    | some ep => o.push (.mapCount (o.views vbr.view).id (t.mem ep.1).id (-subtreeSize t b))
  let new := vbranchNew o vnpb.view { branch := b, parent := some vnpb }
  let o := vbranchIndexPut t new.1 vnpb.view new.2
  let o ← vbranchAdd t o new.2 vnpb
  let o := branchAttachVbranch o b new.2
  return o.push (.mapInsert (o.views vnpb.view).id newParentId branchPos.toNat
    (vbranchToJson t o new.2))

/-- The branch goes to a hidden part of the view: expand the view to it first. -/
def moveExpanding (t : Tree) (o : Overlay) (view : Option ViewPtr) (vbr vb : VbranchPtr)
    (b npb : BranchPtr) (branchPos : UInt16) : Except Fault Overlay := do
  let s ← viewExpandTo t o vbr.view npb true
  match s.2 with
  | none => return s.1
  | some expanded =>
      let o := s.1.push (expandedMessage t s.1 expanded branchPos.toNat)
      match viewGetVbranch o vbr.view npb with
      | none => .error .nullDeref
      | some vnpb => moveVbranch t o view vbr vb vnpb b npb branchPos

/-- The branch moves between two hidden parts of the view: only counters change. -/
def moveHidden (t : Tree) (o : Overlay) (vbr : VbranchPtr) (b opb npb : BranchPtr) :
    Except Fault Overlay :=
  match endpoint t o vbr.view opb, endpoint t o vbr.view npb with
  | none, none => .ok o
  | some src, some dst =>
      if src.2 = dst.2 then .ok o
      else
        .ok ((o.push (.mapCount (o.views vbr.view).id (t.mem (o.vmem src.2).branch).id
          (-subtreeSize t b))).push (.mapCount (o.views vbr.view).id
            (t.mem (o.vmem dst.2).branch).id (subtreeSize t b)))
  | _, _ => .error .nullDeref

/-- What `move` does to the view of the root vbranch `vbr`. -/
def moveInView (t : Tree) (view : Option ViewPtr) (b opb npb : BranchPtr) (newParentId : UInt64)
    (branchPos : UInt16) (o : Overlay) (vbr : VbranchPtr) : Except Fault Overlay :=
  let src := viewGetVbranch o vbr.view b
  -- The destination counts as visible if its vbranch is there and not still to be expanded.
  let dest := (viewGetVbranch o vbr.view npb).filter fun vnpb =>
    !decide ((t.mem (o.vmem vnpb).branch).childN ≠ 0 ∧ (o.vmem vnpb).childList = [])
  match src, dest with
  | some vb, some vnpb => moveVbranch t o view vbr vb vnpb b npb branchPos
  | none, some vnpb =>
      if some vbr.view ≠ view then moveIntoView t o vbr vnpb b opb newParentId branchPos else .ok o
  | some vb, none => moveExpanding t o view vbr vb b npb branchPos
  | none, none => if some vbr.view ≠ view then moveHidden t o vbr b opb npb else .ok o

/-- `move`. A refused move answers 0; if the branch is elsewhere, the view is told where. -/
def move (m : Map) (view : Option ViewPtr) (newParentId oldParentId branchId : UInt64)
    (branchPos : UInt16) : Except Fault (Map × Bool) :=
  match moveCheck m.tree newParentId oldParentId branchId with
  | .refuse => .ok (m, false)
  | .retry b p =>
      match view with
      | none => .ok (m, false)
      | some view =>
          .ok ({ m with overlay := m.overlay.push (.mapMove (m.overlay.views view).id
                  (m.tree.mem p).id (m.tree.mem b).id (branchGetPos m.tree b) true) }, false)
  | .accept b opb npb => do
      let o ← (m.overlay.vbranchList m.tree.branch).foldlM
        (moveInView m.tree view b opb npb newParentId branchPos) m.overlay
      let t ← moveBranch m.tree b opb npb branchPos
      return ({ m with tree := t, overlay := o }, true)

/-! ## Delete -/

/--
The loop of `delete` over the children of `b`, from index `i` on. Every move takes a child out of
the very array the loop walks over. The index is below a 16-bit counter, which bounds the rounds.
-/
def deleteChildren (b : BranchPtr) : ℕ → ℕ → Map → Except Fault Map
  | 0, _, m => .ok m
  | fuel + 1, i, m =>
      if i < (m.tree.mem b).childN.toNat then
        match (m.tree.mem b).childList[i]? with
        | none => .error .nullDeref
        | some child =>
            match (m.tree.mem child).parent with
            | none => .error .nullDeref
            | some p => do
                let s ← move m none (m.tree.mem m.tree.branch).id (m.tree.mem p).id
                  (m.tree.mem child).id 9999
                deleteChildren b fuel (i + 1) s.1
      else .ok m

/-- Take the branch out of the view of `vbr`, or count it off where the view hides it. -/
def deleteInView (t : Tree) (view : Option ViewPtr) (b : BranchPtr) (o : Overlay)
    (vbr : VbranchPtr) : Except Fault Overlay :=
  match viewGetVbranch o vbr.view b with
  | some vb =>
      let o := vbranchDetach o vb
      if some vb.view ≠ view then .ok (o.push (.mapDelete (o.views vb.view).id (t.mem b).id))
      else .ok o
  | none =>
      if some vbr.view ≠ view then
        match (t.mem b).parent with
        | none => .error .nullDeref
        | some pb =>
            match endpoint t o vbr.view pb with
            | none => .ok o
            | some ep =>
                .ok (o.push (.mapCount (o.views vbr.view).id (t.mem (o.vmem ep.2).branch).id
                  (-subtreeSize t b)))
      else .ok o

/-- The memory after `delete` detached the branch, took it out of the index and cleared its id. -/
def forgetBranch (t : Tree) (b : BranchPtr) : Tree :=
  let t := branchDetach t b
  let t := branchIndexDelete t (t.mem b).id
  t.modify b fun x => { x with id := 0 }

/-- Forget the branch and save what changed; the old position is cut to 8 bits. -/
def deleteBranch (t : Tree) (b pb : BranchPtr) : Tree :=
  let oldPos := UInt16.ofNat ((branchGetPos t b) % 256).toNat
  let t := forgetBranch t b
  t.flush (ioBranchDeleted t b pb oldPos)

/-- `delete`: the children go to the root, then the branch is cut off and forgotten. -/
def delete (m : Map) (view : Option ViewPtr) (branchId : UInt64) : Except Fault Map :=
  match branchIndexGet m.tree branchId with
  | none => .ok m
  | some b =>
      match (m.tree.mem b).parent with
      | none => .ok m
      | some _ => do
          let m ← deleteChildren b (2 ^ 16) 0 m
          let o ← (m.overlay.vbranchList m.tree.branch).foldlM (deleteInView m.tree view b)
            m.overlay
          let o :=
            if (m.tree.mem b).noteId ≠ 0 then
              o.push (.mapRemoveMark m.id (m.tree.mem b).noteId (m.tree.mem b).id)
            else o
          match (m.tree.mem b).parent with
          | none => .error .nullDeref
          | some pb => return { m with tree := deleteBranch m.tree b pb, overlay := o }

/-- `move_to_path`: a branch is moved to the end of the path. -/
def moveToPath (m : Map) (parentId : UInt64) (names : List CString) (branchId : UInt64) :
    Except Fault Map := do
  let path ← insertPath m parentId names
  match path.2 with
  | none => return path.1
  | some parent =>
      match branchIndexGet path.1.tree branchId with
      | none => return path.1
      | some b =>
          match (path.1.tree.mem b).parent with
          | none => return path.1
          | some p => do
              let s ← move path.1 none (path.1.tree.mem parent).id (path.1.tree.mem p).id branchId
                9999
              return s.1

/-! ## Views -/

/-- `vbranch_make_visible_path`. -/
def vbranchMakeVisiblePath (o : Overlay) (vb : VbranchPtr) : Overlay :=
  (Forest.chain o.vparent o.vnext vb).foldl
    (fun o vb => o.modify vb fun x => { x with visible := true }) o

/-- Expand a view to a branch and mark the path to it. -/
def showBranch (t : Tree) (view : ViewPtr) (o : Overlay) (b : BranchPtr) :
    Except Fault Overlay := do
  let s ← viewExpandTo t o view b false
  match viewGetVbranch s.1 view b with
  | none => .error .nullDeref
  | some vb => return vbranchMakeVisiblePath s.1 vb

/--
`search_find`: of the rows that SQLite answers, the indexed branches at or below the branch with
id `fromId`, at most 30.
-/
def searchFind (t : Tree) (fromId : UInt64) (rows : List UInt64) : List BranchPtr :=
  ((rows.filterMap (branchIndexGet t)).filter fun b =>
    (t.chain b).any fun a => (t.mem a).id = fromId).take 30

/-- `search_find2`: of the rows that SQLite answers, the indexed branches, at most 30. -/
def searchFind2 (t : Tree) (rows : List UInt64) : List BranchPtr :=
  (rows.filterMap (branchIndexGet t)).take 30

/-- The branches that a request with a query shows, in order; `rows` is the answer of SQLite. -/
def queryBranches (t : Tree) (branchId : UInt64) (query : CString) (docId : UInt64)
    (rows : List UInt64) : List BranchPtr :=
  if query = [] then []
  else if cstr "note:current" <:+: query then
    if docId ≠ 0 then t.branch :: searchFind2 t rows else []
  else
    let filterBranch := (branchIndexGet t branchId).getD t.branch
    filterBranch :: searchFind t (t.mem filterBranch).id rows

/-- A new view that shows the root, marked visible as told. -/
def createRootView (t : Tree) (o : Overlay) (viewId : UInt32) (visible : Bool) :
    Overlay × ViewPtr :=
  let root : VbranchPtr := ⟨o.viewNext, o.vnext⟩
  let created := viewCreate o viewId root
  ((addVbranch t created.1 created.2 { branch := t.branch, visible := visible }).1, created.2)

/-- A view with this id is destroyed before a new one is made. -/
def dropView (o : Overlay) (viewId : UInt32) : Overlay :=
  match viewIndexGet o viewId with
  | some view => viewDestroy o view
  | none => o

/-- The known branches that a request names, in the order in which they are expanded to. -/
def requestedBranches (t : Tree) (branchId : UInt64) (query : CString) (docId : UInt64)
    (endpointIds rows : List UInt64) : List BranchPtr :=
  (branchIndexGet t branchId).toList ++ queryBranches t branchId query docId rows ++
    endpointIds.filterMap (branchIndexGet t)

/-- A view that shows the requested branches. -/
def initRequested (t : Tree) (o : Overlay) (viewId : UInt32) (requested : List BranchPtr) :
    Except Fault (Overlay × ViewPtr) := do
  let created := createRootView t o viewId false
  let o ← requested.foldlM (showBranch t created.2) created.1
  return (o, created.2)

/-- A view of the root and its children, all visible, for an empty request. -/
def initDefault (t : Tree) (o : Overlay) (viewId : UInt32) : Except Fault (Overlay × ViewPtr) := do
  let created := createRootView t o viewId true
  let s ← viewExpandTo t created.1 created.2 t.branch true
  let root := (s.1.views created.2).vbranch
  return ((s.1.vmem root).childList.foldl
    (fun o c => o.modify c fun x => { x with visible := true }) s.1, created.2)

/-- The views after `map_init_view`, and the new view. -/
def initView (t : Tree) (o : Overlay) (viewId : UInt32) (branchId : UInt64) (query : CString)
    (docId : UInt64) (endpointIds rows : List UInt64) : Except Fault (Overlay × ViewPtr) :=
  if query ≠ [] ∨ docId ≠ 0 ∨ endpointIds ≠ [] ∨ branchId ≠ 0 then
    initRequested t (dropView o viewId) viewId
      (requestedBranches t branchId query docId endpointIds rows)
  else initDefault t (dropView o viewId) viewId

/-- `map_init_view`. `rows` are the branches that the search for `query` finds. -/
def mapInitView (m : Map) (viewId : UInt32) (reqId branchId : UInt64) (query : CString)
    (docId : UInt64) (endpointIds rows : List UInt64) : Except Fault Map := do
  let s ← initView m.tree m.overlay viewId branchId query docId endpointIds rows
  return { m with
    overlay := s.1.push (.mapInit (s.1.views s.2).id reqId
      (vbranchToJson m.tree s.1 (s.1.views s.2).vbranch)) }

/-- `map_destroy_view`. -/
def mapDestroyView (m : Map) (view : ViewPtr) : Map :=
  { m with overlay := viewDestroy m.overlay view }

/-- `map_visible` and `map_invisible`. -/
def setVisible (m : Map) (view : ViewPtr) (visible : Bool) (branchIds : List UInt64) : Map :=
  let mark (o : Overlay) (id : UInt64) : Overlay :=
    match vbranchIndexGet o view id with
    | none => o
    | some vb => o.modify vb fun x => { x with visible := visible }
  { m with overlay := branchIds.foldl mark m.overlay }

/-- `map_visible`. -/
def mapVisible (m : Map) (view : ViewPtr) (branchIds : List UInt64) : Map :=
  setVisible m view true branchIds

/-- `map_invisible`. -/
def mapInvisible (m : Map) (view : ViewPtr) (branchIds : List UInt64) : Map :=
  setVisible m view false branchIds

/-- `map_expand_to`. -/
def mapExpandTo (m : Map) (view : ViewPtr) (branchId : UInt64) : Except Fault Map :=
  match branchIndexGet m.tree branchId with
  | none => .ok m
  | some b => do
      let s ← viewExpandTo m.tree m.overlay view b true
      match s.2 with
      | none => return { m with overlay := s.1 }
      | some vb => return { m with overlay := s.1.push (expandedMessage m.tree s.1 vb 0) }

/-- `map_branch_unfold`: a folded vbranch gets its children, and theirs. -/
def mapBranchUnfold (m : Map) (view : ViewPtr) (branchId : UInt64) : Map :=
  match vbranchIndexGet m.overlay view branchId with
  | none => m
  | some vb =>
      if (m.overlay.vmem vb).childList.length =
          (m.tree.mem (m.overlay.vmem vb).branch).childN.toNat then m
      else
        let o := viewExpand m.tree m.overlay vb 2
        { m with overlay := o.push (expandedMessage m.tree o vb 0) }

/-! ## Creating a map -/

/-- A tree that holds only its root, before anything is saved. -/
def rootTree (id : UInt64) (text : CString) : Tree where
  mem := Function.update (fun _ => {}) 0 { id := id, text := text }
  next := 1
  branch := 0
  branchIndex := Function.update (fun _ => none) id (some 0)
  branchN := 1
  bhead := ByteFile.empty
  sqlite := fun _ => none

/-- No views and no messages. -/
def emptyOverlay : Overlay where
  vmem := fun _ => {}
  vnext := 0
  views := fun _ => { id := 0, vbranch := ⟨0, 0⟩, vbranchIndex := fun _ => none }
  viewNext := 0
  viewIndex := fun _ => none
  vbranchList := fun _ => []
  outQ := []

/-- `map_create_empty`. -/
def mapCreateEmpty (id : UInt32) : Map where
  id := id
  tree :=
    let t := ioBranchNew (rootTree 1 (cstr "My map")) 0
    branchCalculate t t.branch
  overlay := emptyOverlay

end Treedb
