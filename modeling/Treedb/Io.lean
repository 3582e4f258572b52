import Treedb.Branch
import Treedb.Forest.Walk

/-!
# The record file (`io.h`, `io.c`)

The file `bhead` holds one 20-byte record for each slot `findex` ever handed out. An operation
rewrites a few records, each with its own `fseek`, `fwrite` and `fflush`. The functions below
return these writes in the order in which they are issued, so that a crash between two of them
can be talked about; `Tree.flush` carries them out.

The offset of a record is kept in 32 bits, as in the source. `io_load_map` is modelled up to the
point where it may stop the process: a record that names an unknown parent, or a child stored
outside the array of its parent, ends the load.
-/

namespace Treedb

open RecordFile

/-- `bhead_t`. -/
@[ext]
structure Bhead where
  id : UInt64 := 0
  parentId : UInt64 := 0
  pos : UInt16 := 0
  childN : UInt16 := 0
  deriving DecidableEq, Repr

namespace Bhead

/-- The 20 bytes of a record. -/
def encode (h : Bhead) : List UInt8 :=
  leBytes 8 h.id.toNat ++ (leBytes 8 h.parentId.toNat ++
    (leBytes 2 h.pos.toNat ++ leBytes 2 h.childN.toNat))

/-- The record that 20 bytes hold. -/
def decode (bytes : List UInt8) : Bhead where
  id := UInt64.ofNat (leValue (bytes.take 8))
  parentId := UInt64.ofNat (leValue ((bytes.drop 8).take 8))
  pos := UInt16.ofNat (leValue ((bytes.drop 16).take 2))
  childN := UInt16.ofNat (leValue ((bytes.drop 18).take 2))

theorem length_encode (h : Bhead) : h.encode.length = 20 := by
  simp [encode]

theorem decode_encode (h : Bhead) : decode h.encode = h := by
  ext1
  · simp [decode, encode, leValue_leBytes]
  · simp [decode, encode, leValue_leBytes]
  · simp [decode, encode, leValue_leBytes, List.drop_append, List.drop_eq_nil_of_le,
      List.take_of_length_le]
  · simp [decode, encode, leValue_leBytes, List.drop_append, List.drop_eq_nil_of_le,
      List.take_of_length_le]

/-- The packed layout of `bhead_t`. -/
def codec : Codec Bhead where
  width := 20
  width_pos := by decide
  encode := encode
  decode := decode
  length_encode := length_encode
  decode_encode := decode_encode

end Bhead

/-- One `fseek`, `fwrite`, `fflush` of a record. -/
structure Write where
  offset : UInt32
  record : Bhead
  deriving DecidableEq, Repr

/-- The file after one write. -/
def applyWrite (file : ByteFile) (w : Write) : ByteFile :=
  file.write w.offset.toNat w.record.encode

namespace Tree

/-- Carry out the writes of an operation. -/
def flush (t : Tree) (ws : List Write) : Tree :=
  { t with bhead := ws.foldl applyWrite t.bhead }

/-- The record of a branch as it stands in memory. -/
def record (t : Tree) (b : BranchPtr) : Bhead :=
  match (t.mem b).parent with
  | none => { id := (t.mem b).id, childN := (t.mem b).childN }
  | some p =>
      { id := (t.mem b).id
        parentId := (t.mem p).id
        pos := UInt16.ofInt (branchGetPos t b)
        childN := (t.mem b).childN }

end Tree

/-- `io_save_branch_head`. -/
def ioSaveBranchHead (t : Tree) (b : BranchPtr) : Write where
  offset := (t.mem b).findex * 20
  record := t.record b

/-- The value SQLite reads in the decimal that `PRIu64` prints. -/
def sqlLiteral (n : UInt64) : SqlNumber :=
  if n.toNat < 2 ^ 63 then .integer n.toNat else .real n.toNat

/-- `INSERT OR REPLACE INTO branch`; it fails if the row id is not an integer. -/
def ioSaveBranchData (t : Tree) (b : BranchPtr) : Tree :=
  match sqlLiteral (t.mem b).id with
  | .integer _ =>
      { t with sqlite := Function.update t.sqlite (t.mem b).id
                 (some ⟨sqlLiteral (t.mem b).noteId, (t.mem b).text⟩) }
  | .real _ => t

/-- `io_childs_reordered`: the records of the children from a position on. -/
def ioChildsReordered (t : Tree) (b : BranchPtr) (posAffected : UInt16) : List Write :=
  (((t.mem b).childList.take (t.mem b).childN.toNat).drop posAffected.toNat).map
    (ioSaveBranchHead t)

/-- `io_branch_moved`, after the move. -/
def ioBranchMoved (t : Tree) (b oldParent : BranchPtr) (oldPos : UInt16) : List Write :=
  match (t.mem b).parent with
  | none => [ioSaveBranchHead t b, ioSaveBranchHead t oldParent]
  | some p =>
      let currentPos := UInt16.ofInt (branchGetPos t b)
      [ioSaveBranchHead t b, ioSaveBranchHead t p, ioSaveBranchHead t oldParent] ++
        ioChildsReordered t p (currentPos + 1) ++ ioChildsReordered t oldParent oldPos

/-- `io_branch_deleted`, after the branch was cut off. -/
def ioBranchDeleted (t : Tree) (b oldParent : BranchPtr) (oldPos : UInt16) : List Write :=
  [ioSaveBranchHead t b, ioSaveBranchHead t oldParent] ++ ioChildsReordered t oldParent oldPos

/-- The writes to `bhead` of `io_branch_new`; it saves the branch data after them. -/
def ioBranchNewWrites (t : Tree) (b : BranchPtr) : List Write :=
  match (t.mem b).parent with
  | none => [ioSaveBranchHead t b]
  | some p =>
      [ioSaveBranchHead t b, ioSaveBranchHead t p] ++
        ioChildsReordered t p (UInt16.ofInt (branchGetPos t b))

/-- `io_branch_new`. -/
def ioBranchNew (t : Tree) (b : BranchPtr) : Tree :=
  ioSaveBranchData (t.flush (ioBranchNewWrites t b)) b

/-! ## Full saving -/

/-- One visit of `io_branch_walk_save`: the record of a branch goes to its slot of the buffer. -/
def saveInto (t : Tree) (buf : ByteFile) (b : BranchPtr) : ByteFile :=
  Bhead.codec.put buf (t.mem b).findex.toNat (t.record b)

/-- The buffer after `io_branch_walk_save` from `b`. -/
def ioBranchWalkSave (t : Tree) (b : BranchPtr) (buf : ByteFile) : ByteFile :=
  Forest.walk (fun b => (t.mem b).childList.take (t.mem b).childN.toNat) (saveInto t) (t.next + 1)
    buf b

/-- The image that `io_resave_map` writes to `bhead`. -/
def ioResaveImage (t : Tree) : ByteFile :=
  ioBranchWalkSave t t.branch (ByteFile.zeros (t.branchN * 20).toNat)

/-- `io_branch_walk_save` from the root saves the data of every branch that it visits. -/
def ioResaveData (t : Tree) : Tree :=
  Forest.walk (fun b => (t.mem b).childList.take (t.mem b).childN.toNat) ioSaveBranchData
    (t.next + 1) t t.branch

/-- `io_resave_map`. -/
def ioResaveMap (t : Tree) : Tree :=
  { ioResaveData t with bhead := ioResaveImage t }

/-! ## Loading -/

/-- Why `io_load_map` does not return. -/
inductive LoadFault
  /-- A record names a parent that no record describes; the process exits. -/
  | noParentBranch
  /-- A child is stored outside the array allocated for its parent. -/
  | posOutOfRange
  /-- After the load `branch_calculate` follows a null pointer: no root, or a branch without data. -/
  | nullDeref
  deriving DecidableEq, Repr

/--
A tree under construction: `slots p` are the entries of the array allocated for `p`, `none`
where nothing was stored yet. `root` is unset until a record without a parent is met.
-/
structure Loading where
  mem : ℕ → Branch
  slots : ℕ → List (Option ℕ)
  index : UInt64 → Option ℕ
  root : Option ℕ

namespace Loading

/-- Nothing was allocated yet. -/
def init : Loading where
  mem := fun _ => {}
  slots := fun _ => []
  index := fun _ => none
  root := none

/-- The first pass allocates the branch of record `i`, whose address is `fast_list[i]`. -/
def alloc (l : Loading) (i : ℕ) (h : Bhead) : Loading :=
  if h.id = 0 then l
  else
    { l with
      mem := Function.update l.mem i { findex := UInt32.ofNat i, id := h.id, childN := h.childN }
      slots := Function.update l.slots i (List.replicate h.childN.toNat none)
      index := Function.update l.index h.id (some i) }

/-- The second pass links the branch of record `i` to its parent. -/
def link (l : Loading) (i : ℕ) (h : Bhead) : Except LoadFault Loading :=
  if h.id = 0 then .ok l
  else if h.parentId ≠ 0 then
    match l.index h.parentId with
    | none => .error .noParentBranch
    | some p =>
        if h.pos.toNat < (l.slots p).length then
          .ok { l with
                mem := Function.update l.mem i { l.mem i with parent := some p }
                slots := Function.update l.slots p ((l.slots p).set h.pos.toNat (some i)) }
        else .error .posOutOfRange
  else .ok { l with root := some i }

end Loading

/-- Both passes of `io_load_map` over the first `n` records. -/
def loadRecords (file : ByteFile) (n : ℕ) : Except LoadFault Loading :=
  let first := (List.range n).foldl (fun l i => l.alloc i (Bhead.codec.get file i)) Loading.init
  (List.range n).foldlM (fun l i => l.link i (Bhead.codec.get file i)) first

/-- `io_load_map`: the size of the file is kept in 32 bits. -/
def ioLoadMap (file : ByteFile) : Except LoadFault Loading :=
  loadRecords file ((UInt32.ofNat file.size).toNat / 20)

end Treedb
